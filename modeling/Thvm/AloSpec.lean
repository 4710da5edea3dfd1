import Thvm.AloRealize
import Thvm.ProbeTable

/-!
# What one layer of realisation does

Realising a term gives it back, reuses one cell of an earlier layer, or builds one
node in fresh cells whose children wait in suspensions of their own.
-/

namespace Thvm.Alo
open ProbeTable

variable {rt rt' : Runtime} {t bookTerm : Term} {state src dst n : ℕ}

/-- The locations of the suspensions in a row of cells. -/
def alosIn (heap : ℕ → Term) (start n : ℕ) : List ℕ :=
  (List.range' start n).filterMap fun c => if (heap c).tag = .alo then some (heap c).val else none

theorem alosIn_succ (heap : ℕ → Term) (start n : ℕ) :
    alosIn heap start (n + 1) = (if (heap start).tag = .alo then [(heap start).val] else []) ++
      alosIn heap (start + 1) n := by
  unfold alosIn
  rw [List.range'_succ, List.filterMap_cons]
  by_cases h : (heap start).tag = .alo
  · simp [h]
  · simp [h]

/-- Everything but the heap is left alone. -/
structure SameTables (rt rt' : Runtime) : Prop where
  book : rt'.book = rt.book
  defs : rt'.defs = rt.defs
  heapCap : rt'.heapCap = rt.heapCap
  states : rt'.states = rt.states
  statesNext : rt'.statesNext = rt.statesNext
  dupShare : rt'.dupShare = rt.dupShare
  dupShareGen : rt'.dupShareGen = rt.dupShareGen

theorem SameTables.refl (rt : Runtime) : SameTables rt rt := ⟨rfl, rfl, rfl, rfl, rfl, rfl, rfl⟩

theorem SameTables.trans {a b c : Runtime} (h : SameTables a b) (h' : SameTables b c) :
    SameTables a c where
  book := h'.book.trans h.book
  defs := h'.defs.trans h.defs
  heapCap := h'.heapCap.trans h.heapCap
  states := h'.states.trans h.states
  statesNext := h'.statesNext.trans h.statesNext
  dupShare := h'.dupShare.trans h.dupShare
  dupShareGen := h'.dupShareGen.trans h.dupShareGen

theorem SameTables.heapSet (rt : Runtime) (loc : ℕ) (t : Term) : SameTables rt (rt.heapSet loc t) :=
  ⟨rfl, rfl, rfl, rfl, rfl, rfl, rfl⟩

theorem heapAlloc_spec {size at' : ℕ} (h : rt.heapAlloc size = .ok (rt', at')) :
    at' = rt.heapNext ∧ rt' = { rt with heapNext := rt.heapNext + size } ∧
      rt.heapNext + size ≤ rt.heapCap := by
  unfold Runtime.heapAlloc at h
  split at h
  · cases h
  · obtain ⟨rfl, rfl⟩ := Prod.mk.inj (Except.ok.inj h)
    exact ⟨rfl, rfl, by omega⟩

/-- A child is passed through or waits in a new suspension. -/
theorem suspendChild_spec (hcap : rt.heapCap ≤ 2 ^ 38) {child : Term}
    (h : aloSuspendChild rt child state = .ok (rt', t)) :
    (rt' = rt ∧ t.tag ≠ .alo) ∨
    SameTables rt rt' ∧ rt'.heapNext = rt.heapNext + 2 ∧ rt'.heapNext ≤ rt.heapCap ∧
      t.tag = .alo ∧ t.val = rt.heapNext ∧ (∀ c < rt.heapNext, rt'.heap c = rt.heap c) ∧
      rt'.heap (rt.heapNext + 1) = termNew false .num dtInt32 state := by
  unfold aloSuspendChild at h
  split at h
  case isTrue hatom =>
    obtain ⟨rfl, rfl⟩ := Prod.mk.inj (Except.ok.inj h)
    refine .inl ⟨rfl, fun halo => ?_⟩
    simp [Atomic, halo] at hatom
  case isFalse =>
    obtain ⟨⟨rt₁, loc⟩, halloc, h⟩ := bind_ok h
    obtain ⟨rfl, rfl, hfit⟩ := heapAlloc_spec halloc
    obtain ⟨rfl, rfl⟩ := Prod.mk.inj (Except.ok.inj h)
    refine .inr ⟨⟨rfl, rfl, rfl, rfl, rfl, rfl, rfl⟩, rfl, hfit, rfl,
      Nat.mod_eq_of_lt (by omega), fun c hc => ?_, ?_⟩
    · simp [Runtime.heapSet, Function.update_of_ne, show c ≠ rt.heapNext by omega,
        show c ≠ rt.heapNext + 1 by omega]
    · simp [Runtime.heapSet]

/-- A row of cells filled with suspended children. -/
structure Row (rt rt' : Runtime) (dst n state : ℕ) : Prop where
  same : SameTables rt rt'
  next : rt.heapNext ≤ rt'.heapNext
  cap : rt'.heapNext ≤ rt.heapCap
  old : ∀ c < rt.heapNext, c < dst ∨ dst + n ≤ c → rt'.heap c = rt.heap c
  alos : ∀ l ∈ alosIn rt'.heap dst n, rt.heapNext ≤ l ∧ l + 2 ≤ rt'.heapNext ∧
    rt'.heap (l + 1) = termNew false .num dtInt32 state
  apart : (alosIn rt'.heap dst n).Pairwise fun l l' => l + 2 ≤ l'

theorem suspendRun_spec (hcap : rt.heapCap ≤ 2 ^ 38) (hnext : rt.heapNext ≤ rt.heapCap)
    (hdst : dst + n ≤ rt.heapNext) (h : suspendRun state n src dst rt = .ok rt') :
    Row rt rt' dst n state := by
  induction n generalizing rt src dst with
  | zero =>
    obtain rfl := Except.ok.inj h
    exact ⟨.refl rt, Nat.le_refl _, hnext, fun _ _ _ => rfl, by simp [alosIn], by simp [alosIn]⟩
  | succ n ih =>
    obtain ⟨⟨rt₁, t⟩, hchild, hmore⟩ := bind_ok h
    rcases suspendChild_spec hcap hchild with ⟨rfl, htag⟩ |
      ⟨hsame, hnext₁, hfit, htag, hval, hold, hsid⟩
    · have hrow := ih (show (rt₁.heapSet dst t).heapCap ≤ 2 ^ 38 from hcap) hnext
        (show dst + 1 + n ≤ rt₁.heapNext by omega) hmore
      have hdstCell : rt'.heap dst = t := by
        rw [hrow.old dst (by simp only [Runtime.heapSet]; omega) (.inl (Nat.lt_succ_self dst))]
        simp [Runtime.heapSet]
      have halos : alosIn rt'.heap dst (n + 1) = alosIn rt'.heap (dst + 1) n := by
        rw [alosIn_succ, hdstCell, if_neg htag, List.nil_append]
      refine ⟨(SameTables.heapSet rt₁ dst t).trans hrow.same, hrow.next, hrow.cap, fun c hc hout => ?_, ?_, ?_⟩
      · rw [hrow.old c hc (by omega)]
        simp [Runtime.heapSet, show c ≠ dst by omega]
      · rw [halos]
        exact hrow.alos
      · rw [halos]
        exact hrow.apart
    · have hrow := ih (show (rt₁.heapSet dst t).heapCap ≤ 2 ^ 38 from hsame.heapCap ▸ hcap)
        (show rt₁.heapNext ≤ rt₁.heapCap from hsame.heapCap ▸ hfit)
        (show dst + 1 + n ≤ rt₁.heapNext by omega) hmore
      have hsame' : SameTables rt₁ rt' := (SameTables.heapSet rt₁ dst t).trans hrow.same
      have hdstCell : rt'.heap dst = t := by
        rw [hrow.old dst (by simp only [Runtime.heapSet]; omega) (.inl (Nat.lt_succ_self dst))]
        simp [Runtime.heapSet]
      have halos : alosIn rt'.heap dst (n + 1) = rt.heapNext :: alosIn rt'.heap (dst + 1) n := by
        rw [alosIn_succ, hdstCell, if_pos htag, hval]
        rfl
      have hnext₂ : rt₁.heapNext ≤ rt'.heapNext := hrow.next
      have hrest : ∀ l ∈ alosIn rt'.heap (dst + 1) n, rt₁.heapNext ≤ l ∧ l + 2 ≤ rt'.heapNext ∧
          rt'.heap (l + 1) = termNew false .num dtInt32 state := hrow.alos
      refine ⟨hsame.trans hsame', by omega, ?_, fun c hc hout => ?_, ?_, ?_⟩
      · have hcap' := hrow.cap
        simp only [Runtime.heapSet, hsame.heapCap] at hcap'
        exact hcap'
      · rw [hrow.old c (by simp only [Runtime.heapSet]; omega) (by omega)]
        simp only [Runtime.heapSet]
        rw [Function.update_of_ne (by omega), hold c hc]
      · rw [halos]
        intro l hl
        rcases List.mem_cons.mp hl with rfl | hl
        · refine ⟨Nat.le_refl _, by omega, ?_⟩
          rw [hrow.old _ (by simp only [Runtime.heapSet]; omega) (by omega)]
          simp only [Runtime.heapSet]
          rw [Function.update_of_ne (by omega), hsid]
        · obtain ⟨h1, h2, h3⟩ := hrest l hl
          exact ⟨by omega, h2, h3⟩
      · rw [halos]
        refine List.pairwise_cons.mpr ⟨fun l hl => ?_, hrow.apart⟩
        have := (hrest l hl).1
        omega

/-- The projections that share the cell of their duplication. -/
def Plain (t : Term) : Prop :=
  t.tag = .bj0 ∨ t.tag = .bj1 ∨ (t.tag = .dp0 ∨ t.tag = .dp1) ∧ dupGradFlag t.ext = false

instance (t : Term) : Decidable (Plain t) := inferInstanceAs (Decidable (_ ∨ _))

/-- How many dynamic cells the node that a book term is realised to has. -/
def nodeSpan (rt : Runtime) (t : Term) (state : ℕ) : ℕ :=
  match t.tag with
  | .num | .ten | .ref | .era => 0
  | .var =>
    match aloStateLookup rt state t.val with
    | .ok (some _) => 1
    | _ => 0
  | .dp0 | .dp1 => if dupGradFlag t.ext then aloNodeArity rt.book t else 1
  | .bj0 | .bj1 | .lam => 1
  | .ctr => if (rt.book t.val).tag = .num then 1 + (rt.book t.val).val % 2 ^ 32 else 0
  | _ => aloNodeArity rt.book t

/-- A node of `n` cells at the end of the old heap, with suspensions behind it. -/
structure FreshNode (rt rt' : Runtime) (n state : ℕ) : Prop where
  book : rt'.book = rt.book
  defs : rt'.defs = rt.defs
  heapCap : rt'.heapCap = rt.heapCap
  dupShareGen : rt'.dupShareGen = rt.dupShareGen
  pos : 0 < n
  next : rt.heapNext + n ≤ rt'.heapNext
  cap : rt'.heapNext ≤ rt.heapCap
  old : ∀ c < rt.heapNext, rt'.heap c = rt.heap c
  alos : ∀ l ∈ alosIn rt'.heap rt.heapNext n, rt.heapNext + n ≤ l ∧ l + 2 ≤ rt'.heapNext ∧
    rt'.heap (l + 1) = termNew false .num dtInt32 state
  apart : (alosIn rt'.heap rt.heapNext n).Pairwise fun l l' => l + 2 ≤ l'

/-- The ways in which a layer is realised. -/
inductive Outcome (rt : Runtime) (t : Term) (state : ℕ) (rt' : Runtime) (r : Term) : ℕ → Prop
  | verbatim (hrt : rt' = rt) (hterm : r = t) (hplain : ¬ Plain t) : Outcome rt t state rt' r 0
  | bound {loc : ℕ} (hrt : rt' = rt) (hplain : ¬ Plain t)
      (hlook : aloStateLookup rt state t.val = .ok (some loc)) (hval : r.val = loc % 2 ^ 38) :
      Outcome rt t state rt' r 1
  | shared {loc : ℕ} (hrt : rt' = rt) (hplain : Plain t)
      (hlook : dupShareLookup rt state t.val = some loc) (hval : r.val = loc % 2 ^ 38) :
      Outcome rt t state rt' r 1
  | first (hnode : FreshNode rt rt' 1 state) (hplain : Plain t)
      (hlook : dupShareLookup rt state t.val = none) (hval : r.val = rt.heapNext)
      (hstates : rt'.states = rt.states) (hstatesNext : rt'.statesNext = rt.statesNext)
      (hpush : rt'.dupShare = (dupSharePush rt state t.val rt.heapNext).dupShare) :
      Outcome rt t state rt' r 1
  | binder (hnode : FreshNode rt rt' 1 rt.statesNext) (hplain : ¬ Plain t)
      (hval : r.val = rt.heapNext) (hroom : rt.statesNext < aloStateCap)
      (hstates : rt'.states = Function.update rt.states rt.statesNext ⟨state, t.val, rt.heapNext⟩)
      (hstatesNext : rt'.statesNext = rt.statesNext + 1) (hpush : rt'.dupShare = rt.dupShare) :
      Outcome rt t state rt' r 1
  | node {n : ℕ} (hnode : FreshNode rt rt' n state) (hplain : ¬ Plain t)
      (hval : r.val = rt.heapNext) (hstates : rt'.states = rt.states)
      (hstatesNext : rt'.statesNext = rt.statesNext) (hpush : rt'.dupShare = rt.dupShare) :
      Outcome rt t state rt' r n

/-- A row that starts behind `k` cells of a new node. -/
theorem Row.freshNode {rt₁ : Runtime} (hrow : Row rt₁ rt' dst n state) (rt : Runtime) (k m : ℕ)
    (hsame : rt₁.book = rt.book ∧ rt₁.defs = rt.defs ∧ rt₁.heapCap = rt.heapCap ∧
      rt₁.dupShareGen = rt.dupShareGen) (hdst : dst = rt.heapNext + k) (hm : m = k + n) (hpos : 0 < m)
    (hnext : rt₁.heapNext = rt.heapNext + m) (hold : ∀ c < rt.heapNext, rt₁.heap c = rt.heap c)
    (hhead : ∀ c, rt.heapNext ≤ c → c < dst → (rt₁.heap c).tag ≠ .alo) :
    FreshNode rt rt' m state := by
  obtain ⟨hbook, hdefs, hcap, hgen⟩ := hsame
  subst hdst hm
  have halos : alosIn rt'.heap rt.heapNext (k + n) = alosIn rt'.heap (rt.heapNext + k) n := by
    have hkeep : ∀ c, rt.heapNext ≤ c → c < rt.heapNext + k → (rt'.heap c).tag ≠ .alo := by
      intro c hlow hhigh
      rw [hrow.old c (by omega) (.inl hhigh)]
      exact hhead c hlow hhigh
    unfold alosIn
    rw [← List.range'_append_1, List.filterMap_append]
    have hnil : (List.range' rt.heapNext k).filterMap (fun c =>
        if (rt'.heap c).tag = .alo then some (rt'.heap c).val else none) = [] := by
      refine List.filterMap_eq_nil_iff.mpr fun c hc => ?_
      obtain ⟨hlow, hhigh⟩ := List.mem_range'_1.mp hc
      rw [if_neg (hkeep c hlow hhigh)]
    rw [hnil, List.nil_append]
  refine ⟨hrow.same.book.trans hbook, hrow.same.defs.trans hdefs, hrow.same.heapCap.trans hcap,
    hrow.same.dupShareGen.trans hgen, hpos, hnext ▸ hrow.next, hcap ▸ hrow.cap, fun c hc => ?_, ?_,
    halos ▸ hrow.apart⟩
  · rw [hrow.old c (by omega) (.inl (by omega)), hold c hc]
  · rw [halos, ← hnext]
    exact hrow.alos

theorem suspendRun_one {rt₁ : Runtime} {body : Term}
    (h : aloSuspendChild rt (rt.book src) state = .ok (rt₁, body)) :
    suspendRun state 1 src dst rt = .ok (rt₁.heapSet dst body) := by
  simp only [suspendRun, h, bind, Except.bind]

theorem shareDup_spec (hcap : rt.heapCap ≤ 2 ^ 38) {loc val : ℕ}
    (h : shareDup rt state val = .ok (rt', loc)) :
    (rt' = rt ∧ dupShareLookup rt state val = some loc) ∨
    dupShareLookup rt state val = none ∧ loc = rt.heapNext ∧ FreshNode rt rt' 1 state ∧
      rt'.states = rt.states ∧ rt'.statesNext = rt.statesNext ∧
      rt'.dupShare = (dupSharePush rt state val rt.heapNext).dupShare := by
  unfold shareDup at h
  cases hlook : dupShareLookup rt state val with
  | some loc' =>
    rw [hlook] at h
    obtain ⟨rfl, rfl⟩ := Prod.mk.inj (Except.ok.inj h)
    exact .inl ⟨rfl, rfl⟩
  | none =>
    rw [hlook] at h
    obtain ⟨⟨rt₁, loc₁⟩, halloc, h⟩ := bind_ok h
    obtain ⟨rfl, rfl, hfit⟩ := heapAlloc_spec halloc
    obtain ⟨⟨rt₂, body⟩, hchild, h⟩ := bind_ok h
    obtain ⟨rfl, rfl⟩ := Prod.mk.inj (Except.ok.inj h)
    have hrow : Row { rt with heapNext := rt.heapNext + 1 } (rt₂.heapSet rt.heapNext body)
        rt.heapNext 1 state :=
      suspendRun_spec hcap hfit (Nat.le_refl _) (suspendRun_one hchild)
    have hnode : FreshNode rt (rt₂.heapSet rt.heapNext body) 1 state :=
      hrow.freshNode rt 0 1 ⟨rfl, rfl, rfl, rfl⟩ rfl rfl Nat.one_pos rfl (fun _ _ => rfl)
        fun c hlow hhigh => absurd hhigh (Nat.not_lt.mpr hlow)
    refine .inr ⟨rfl, rfl, ⟨hnode.book, hnode.defs, hnode.heapCap, hnode.dupShareGen, hnode.pos,
      hnode.next, hnode.cap, hnode.old, hnode.alos, hnode.apart⟩, hrow.same.states,
      hrow.same.statesNext, ?_⟩
    have htable : (rt₂.heapSet rt.heapNext body).dupShare = rt.dupShare := hrow.same.dupShare
    have hgen : (rt₂.heapSet rt.heapNext body).dupShareGen = rt.dupShareGen := hrow.same.dupShareGen
    simp only [dupSharePush, htable, hgen]

theorem realizeNode_spec (hcap : rt.heapCap ≤ 2 ^ 38) {r : Term} (hplain : ¬ Plain t)
    (h : realizeNode rt t state = .ok (rt', r)) :
    Outcome rt t state rt' r (aloNodeArity rt.book t) := by
  unfold realizeNode at h
  split at h
  case isTrue hzero =>
    obtain ⟨rfl, rfl⟩ := Prod.mk.inj (Except.ok.inj h)
    rw [hzero]
    exact .verbatim rfl rfl hplain
  case isFalse hpos =>
    obtain ⟨⟨rt₁, loc⟩, halloc, h⟩ := bind_ok h
    obtain ⟨rfl, rfl, hfit⟩ := heapAlloc_spec halloc
    obtain ⟨rt₂, hrun, h⟩ := bind_ok h
    obtain ⟨rfl, rfl⟩ := Prod.mk.inj (Except.ok.inj h)
    have hrow : Row { rt with heapNext := rt.heapNext + aloNodeArity rt.book t } rt₂ rt.heapNext
        (aloNodeArity rt.book t) state := suspendRun_spec hcap hfit (Nat.le_refl _) hrun
    have hnode : FreshNode rt rt₂ (aloNodeArity rt.book t) state :=
      hrow.freshNode rt 0 _ ⟨rfl, rfl, rfl, rfl⟩ rfl (Nat.zero_add _).symm (Nat.pos_of_ne_zero hpos) rfl
        (fun _ _ => rfl) fun c hlow hhigh => absurd hhigh (Nat.not_lt.mpr hlow)
    refine .node hnode hplain (Nat.mod_eq_of_lt ?_) hrow.same.states hrow.same.statesNext
      hrow.same.dupShare
    omega

theorem projection_spec (hcap : rt.heapCap ≤ 2 ^ 38) {r : Term} {tag : Tag} (hplain : Plain t)
    (h : (do
      let (rt, loc) ← shareDup rt state t.val
      .ok (rt, termNew false tag t.ext loc)) = .ok (rt', r)) : Outcome rt t state rt' r 1 := by
  obtain ⟨⟨rt₁, loc⟩, hshare, h⟩ := bind_ok h
  obtain ⟨rfl, rfl⟩ := Prod.mk.inj (Except.ok.inj h)
  rcases shareDup_spec hcap hshare with
    ⟨rfl, hlook⟩ | ⟨hlook, rfl, hnode, hstates, hstatesNext, hpush⟩
  · exact .shared rfl hplain hlook rfl
  · refine .first hnode hplain hlook (Nat.mod_eq_of_lt ?_) hstates hstatesNext hpush
    have := hnode.next
    have := hnode.cap
    omega

theorem lam_spec (hcap : rt.heapCap ≤ 2 ^ 38) {r : Term} (htag : t.tag = .lam)
    (h : aloRealize rt t state = .ok (rt', r)) : Outcome rt t state rt' r 1 := by
  simp only [aloRealize, htag] at h
  obtain ⟨⟨rt₁, loc⟩, halloc, h⟩ := bind_ok h
  obtain ⟨rfl, rfl, hfit⟩ := heapAlloc_spec halloc
  obtain ⟨⟨rt₂, bodyState⟩, hpush, h⟩ := bind_ok h
  obtain ⟨⟨rt₃, body⟩, hchild, h⟩ := bind_ok h
  obtain ⟨rfl, rfl⟩ := Prod.mk.inj (Except.ok.inj h)
  unfold aloStatePush at hpush
  split at hpush
  · cases hpush
  case isFalse hroom =>
    obtain ⟨rfl, rfl⟩ := Prod.mk.inj (Except.ok.inj hpush)
    have hrow : Row { rt with
        heapNext := rt.heapNext + 1
        states := Function.update rt.states rt.statesNext ⟨state, t.val, rt.heapNext⟩
        statesNext := rt.statesNext + 1 } (rt₃.heapSet rt.heapNext body) rt.heapNext 1
        rt.statesNext :=
      suspendRun_spec hcap hfit (Nat.le_refl _) (suspendRun_one hchild)
    have hnode : FreshNode rt (rt₃.heapSet rt.heapNext body) 1 rt.statesNext :=
      hrow.freshNode rt 0 1 ⟨rfl, rfl, rfl, rfl⟩ rfl rfl Nat.one_pos rfl (fun _ _ => rfl)
        fun c hlow hhigh => absurd hhigh (Nat.not_lt.mpr hlow)
    refine .binder hnode (by simp [Plain, htag]) (Nat.mod_eq_of_lt (by omega))
      (Nat.lt_of_not_le hroom) hrow.same.states hrow.same.statesNext hrow.same.dupShare

theorem ctr_spec (hcap : rt.heapCap ≤ 2 ^ 38) {r : Term} (htag : t.tag = .ctr)
    (h : aloRealize rt t state = .ok (rt', r)) :
    Outcome rt t state rt' r
      (if (rt.book t.val).tag = .num then 1 + (rt.book t.val).val % 2 ^ 32 else 0) := by
  have hplain : ¬ Plain t := by simp [Plain, htag]
  simp only [aloRealize, htag] at h
  by_cases hnum : (rt.book t.val).tag = .num
  · rw [if_neg (not_not_intro hnum)] at h
    rw [if_pos hnum]
    obtain ⟨⟨rt₁, loc⟩, halloc, h⟩ := bind_ok h
    obtain ⟨rfl, rfl, hfit⟩ := heapAlloc_spec halloc
    obtain ⟨rt₂, hrun, h⟩ := bind_ok h
    obtain ⟨rfl, rfl⟩ := Prod.mk.inj (Except.ok.inj h)
    have hrow : Row (Runtime.heapSet { rt with
        heapNext := rt.heapNext + (1 + (rt.book t.val).val % 2 ^ 32) } rt.heapNext
        (rt.book t.val)) rt₂ (rt.heapNext + 1) ((rt.book t.val).val % 2 ^ 32) state :=
      suspendRun_spec hcap hfit (by simp only [Runtime.heapSet]; omega) hrun
    have hnode : FreshNode rt rt₂ (1 + (rt.book t.val).val % 2 ^ 32) state := by
      refine hrow.freshNode rt 1 _ ⟨rfl, rfl, rfl, rfl⟩ rfl rfl (by omega) rfl (fun c hc => ?_)
        fun c hlow hhigh => ?_
      · simp [Runtime.heapSet, show c ≠ rt.heapNext by omega]
      · obtain rfl : c = rt.heapNext := by omega
        simp [Runtime.heapSet, hnum]
    exact .node hnode hplain (Nat.mod_eq_of_lt (by omega)) hrow.same.states hrow.same.statesNext
      hrow.same.dupShare
  · rw [if_pos hnum] at h
    obtain ⟨rfl, rfl⟩ := Prod.mk.inj (Except.ok.inj h)
    rw [if_neg hnum]
    exact .verbatim rfl rfl hplain

theorem var_spec {r : Term} (htag : t.tag = .var) (h : aloRealize rt t state = .ok (rt', r)) :
    Outcome rt t state rt' r (nodeSpan rt t state) := by
  have hplain : ¬ Plain t := by simp [Plain, htag]
  simp only [aloRealize, htag] at h
  obtain ⟨found, hlook, h⟩ := bind_ok h
  simp only [nodeSpan, htag, hlook]
  cases found with
  | none =>
    obtain ⟨rfl, rfl⟩ := Prod.mk.inj (Except.ok.inj h)
    exact .verbatim rfl rfl hplain
  | some loc =>
    obtain ⟨rfl, rfl⟩ := Prod.mk.inj (Except.ok.inj h)
    exact .bound rfl hplain hlook rfl

theorem realize_spec (hcap : rt.heapCap ≤ 2 ^ 38) {r : Term}
    (h : aloRealize rt t state = .ok (rt', r)) :
    Outcome rt t state rt' r (nodeSpan rt t state) := by
  cases htag : t.tag
  case num | ten | ref | era =>
    simp only [aloRealize, htag] at h
    obtain ⟨rfl, rfl⟩ := Prod.mk.inj (Except.ok.inj h)
    simp only [nodeSpan, htag]
    exact .verbatim rfl rfl (by simp [Plain, htag])
  case var => exact var_spec htag h
  case lam =>
    simp only [nodeSpan, htag]
    exact lam_spec hcap htag h
  case ctr =>
    simp only [nodeSpan, htag]
    exact ctr_spec hcap htag h
  case bj0 | bj1 =>
    simp only [aloRealize, htag] at h
    simp only [nodeSpan, htag]
    exact projection_spec hcap (by simp [Plain, htag]) h
  case dp0 | dp1 =>
    simp only [aloRealize, htag] at h
    simp only [nodeSpan, htag]
    cases hgrad : dupGradFlag t.ext with
    | true =>
      rw [hgrad] at h
      exact realizeNode_spec hcap (by simp [Plain, htag, hgrad]) h
    | false =>
      rw [hgrad] at h
      exact projection_spec hcap (by simp [Plain, htag, hgrad]) h
  all_goals
    simp only [aloRealize, htag] at h
    simp only [nodeSpan, htag]
    exact realizeNode_spec hcap (by simp [Plain, htag]) h

theorem bind_total {α β : Type} {x : Except Halt α} {f : α → Except Halt β}
    (hx : x ≠ .error .rounds) (hf : ∀ a, f a ≠ .error .rounds) : x >>= f ≠ .error .rounds := by
  cases x with
  | error e => exact fun he => hx (by cases he; rfl)
  | ok a => exact hf a

theorem heapAlloc_total (rt : Runtime) (size : ℕ) : rt.heapAlloc size ≠ .error .rounds := by
  unfold Runtime.heapAlloc
  split <;> simp

theorem suspendChild_total (rt : Runtime) (child : Term) (state : ℕ) :
    aloSuspendChild rt child state ≠ .error .rounds := by
  unfold aloSuspendChild
  split
  · simp
  · exact bind_total (heapAlloc_total rt 2) fun _ => by simp

theorem suspendRun_total (rt : Runtime) (state n src dst : ℕ) :
    suspendRun state n src dst rt ≠ .error .rounds := by
  induction n generalizing rt src dst with
  | zero => simp [suspendRun]
  | succ n ih => exact bind_total (suspendChild_total _ _ _) fun _ => ih _ _ _

theorem shareDup_total (rt : Runtime) (state val : ℕ) : shareDup rt state val ≠ .error .rounds := by
  unfold shareDup
  split
  · simp
  · exact bind_total (heapAlloc_total _ _) fun _ => bind_total (suspendChild_total _ _ _) fun _ => by
      simp

theorem realizeNode_total (rt : Runtime) (t : Term) (state : ℕ) :
    realizeNode rt t state ≠ .error .rounds := by
  unfold realizeNode
  split
  · simp
  · exact bind_total (heapAlloc_total _ _) fun _ => bind_total (suspendRun_total _ _ _ _ _) fun _ => by
      simp

theorem statePush_total (rt : Runtime) (parent oldLoc newLoc : ℕ) :
    aloStatePush rt parent oldLoc newLoc ≠ .error .rounds := by
  unfold aloStatePush
  split <;> simp

/-- Only the walk along the chain of bindings could go on for ever. -/
theorem realize_total (hlook : ∀ b, aloStateLookup rt state b ≠ .error .rounds) :
    aloRealize rt t state ≠ .error .rounds := by
  cases htag : t.tag
  case num | ten | ref | era => simp [aloRealize, htag]
  case var =>
    simp only [aloRealize, htag]
    refine bind_total (hlook _) fun found => ?_
    cases found <;> simp
  case dp0 | dp1 =>
    simp only [aloRealize, htag]
    split
    · exact realizeNode_total _ _ _
    · exact bind_total (shareDup_total _ _ _) fun _ => by simp
  case bj0 | bj1 =>
    simp only [aloRealize, htag]
    exact bind_total (shareDup_total _ _ _) fun _ => by simp
  case lam =>
    simp only [aloRealize, htag]
    exact bind_total (heapAlloc_total _ _) fun _ => bind_total (statePush_total _ _ _ _) fun _ =>
      bind_total (suspendChild_total _ _ _) fun _ => by simp
  case ctr =>
    simp only [aloRealize, htag]
    split
    · simp
    · exact bind_total (heapAlloc_total _ _) fun _ => bind_total (suspendRun_total _ _ _ _ _) fun _ =>
        by simp
  all_goals
    simp only [aloRealize, htag]
    exact realizeNode_total _ _ _

end Thvm.Alo
