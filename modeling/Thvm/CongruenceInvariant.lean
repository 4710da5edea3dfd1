import Thvm.CongruenceTrail
import Thvm.LinkedLists
import Mathlib.Data.List.Forall2
import Mathlib.Logic.Relation

/-!
# The invariant of the congruence closure

Two nodes in one class are equal by the asserted equations, and every application finds in
the table, under the representatives of its arguments, a node that is in its class or is
pending to be merged with it.
-/

namespace Thvm.CongruenceClosure
open LinearProbing RankedForests LinkedLists Relation

/-- What follows from the equations by reflexivity, symmetry, transitivity and congruence. -/
inductive Congruent (nodes : List CcNode) (eqs : List (ℕ × ℕ)) : ℕ → ℕ → Prop
  | refl (n : ℕ) : Congruent nodes eqs n n
  | symm {m n : ℕ} (h : Congruent nodes eqs m n) : Congruent nodes eqs n m
  | trans {m n k : ℕ} (h : Congruent nodes eqs m n) (h' : Congruent nodes eqs n k) :
      Congruent nodes eqs m k
  | eqn {p : ℕ × ℕ} (h : p ∈ eqs) : Congruent nodes eqs p.1 p.2
  | congr {m n f : ℕ} {as bs : List ℕ} (hm : nodes[m]? = some (.app f as))
      (hn : nodes[n]? = some (.app f bs)) (hlen : as.length = bs.length)
      (h : ∀ p ∈ as.zip bs, Congruent nodes eqs p.1 p.2) : Congruent nodes eqs m n

variable {s s' : CcState} {nodes nodes' : List CcNode} {eqs eqs' : List (ℕ × ℕ)} {m n f ra rb c : ℕ}
  {as bs cs : List ℕ}

theorem Congruent.mono (h : Congruent nodes eqs m n)
    (hnodes : ∀ (n : ℕ) (node : CcNode), nodes[n]? = some node → nodes'[n]? = some node)
    (heqs : ∀ p ∈ eqs, p ∈ eqs') : Congruent nodes' eqs' m n := by
  induction h with
  | refl n => exact .refl n
  | symm _ ih => exact .symm ih
  | trans _ _ ih ih' => exact .trans ih ih'
  | eqn h => exact .eqn (heqs _ h)
  | congr hm hn hlen _ ih => exact .congr (hnodes _ _ hm) (hnodes _ _ hn) hlen ih

def useNext (uses : List (ℕ × Option ℕ)) (c : ℕ) : Option ℕ := uses[c]?.bind Prod.snd

/-- One of the cells holds the node. -/
def Holds (uses : List (ℕ × Option ℕ)) (cs : List ℕ) (n : ℕ) : Prop :=
  ∃ c ∈ cs, ∃ next, uses[c]? = some (n, next)

/-- The cells of the use lists, one list for each class. -/
structure Linked (uses : List (ℕ × Option ℕ)) (useHead : ℕ → Option ℕ) (lists : ℕ → List ℕ) :
    Prop where
  path : ∀ r, Path (useNext uses) (useHead r) (lists r)
  lt : ∀ r, ∀ c ∈ lists r, c < uses.length
  nodup : ∀ r, (lists r).Nodup
  disjoint : ∀ r r' c, c ∈ lists r → c ∈ lists r' → r = r'

/-- Nodes that are in one class once the pending merges are done. -/
def Joined (s : CcState) : ℕ → ℕ → Prop :=
  EqvGen fun m n => ccFind s m = ccFind s n ∨ (m, n) ∈ s.pend

/-- Between two steps. The applications in `open'` are not canonical yet, and those that
`unlisted` relates to an argument are not in the use list of its class yet. -/
structure CcInv (s : CcState) (eqs : List (ℕ × ℕ)) (lists : ℕ → List ℕ) (open' : ℕ → Prop)
    (unlisted : ℕ → ℕ → Prop) : Prop where
  forest : Forest s.nodes.length s.parent s.rank
  fresh : ∀ n, s.nodes.length ≤ n → s.parent n = n ∧ s.rank n = 0 ∧ s.useHead n = none
  args : ∀ (n f : ℕ) (as : List ℕ), s.nodes[n]? = some (.app f as) → ∀ a ∈ as, a < s.nodes.length
  linked : Linked s.uses s.useHead lists
  apps : ∀ (c : ℕ) (p : ℕ × Option ℕ), s.uses[c]? = some p →
    ∃ f as, s.nodes[p.1]? = some (CcNode.app f as)
  sigOk : SigOk s.sig
  keys : ∀ key n, s.sig.Has key n → ∃ f as ks, s.nodes[n]? = some (CcNode.app f as) ∧
    key = f :: ks ∧ List.Forall₂ (Below s.parent) as ks
  used : ∀ (n f : ℕ) (as : List ℕ), s.nodes[n]? = some (.app f as) → ∀ a ∈ as,
    unlisted n a ∨ Holds s.uses (lists (ccFind s a)) n
  sound : ∀ m < s.nodes.length, ∀ n < s.nodes.length, ccFind s m = ccFind s n →
    Congruent s.nodes eqs m n
  pendSound : ∀ p ∈ s.pend, p.1 < s.nodes.length ∧ p.2 < s.nodes.length ∧
    Congruent s.nodes eqs p.1 p.2
  eqs : ∀ p ∈ eqs, p.1 < s.nodes.length ∧ p.2 < s.nodes.length ∧ Joined s p.1 p.2
  closed : ∀ (n f : ℕ) (as : List ℕ), s.nodes[n]? = some (.app f as) → ¬open' n →
    ∃ m, s.sig.Has (ccKey s f as) m ∧ Joined s m n

variable {lists : ℕ → List ℕ} {open' : ℕ → Prop} {unlisted : ℕ → ℕ → Prop}

theorem node_lt {x : CcNode} (h : s.nodes[n]? = some x) : n < s.nodes.length :=
  (List.getElem?_eq_some_iff.mp h).1

theorem Joined.of_find (h : ccFind s m = ccFind s n) : Joined s m n := .rel _ _ (.inl h)

theorem Joined.of_pend (h : (m, n) ∈ s.pend) : Joined s m n := .rel _ _ (.inr h)

/-- What was joined stays so when every reason for it does. -/
theorem Joined.mono (h : Joined s m n) (hfind : ∀ m n, ccFind s m = ccFind s n → Joined s' m n)
    (hpend : ∀ m n, (m, n) ∈ s.pend → Joined s' m n) : Joined s' m n := by
  induction h with
  | rel m n h =>
    rcases h with h | h
    · exact hfind m n h
    · exact hpend m n h
  | refl n => exact .refl n
  | symm m n _ ih => exact .symm _ _ ih
  | trans m n k _ _ ih ih' => exact .trans _ _ _ ih ih'

/-- With no merges pending, joined means in one class. -/
theorem Joined.find_eq (h : Joined s m n) (hpend : s.pend = []) : ccFind s m = ccFind s n := by
  induction h with
  | rel m n h =>
    rcases h with h | h
    · exact h
    · rw [hpend] at h
      cases h
  | refl n => rfl
  | symm m n _ ih => exact ih.symm
  | trans m n k _ _ ih ih' => exact ih.trans ih'

theorem CcInv.find_lt (h : CcInv s eqs lists open' unlisted) (hn : n < s.nodes.length) :
    ccFind s n < s.nodes.length :=
  h.forest.root_lt hn

theorem CcInv.find_root (h : CcInv s eqs lists open' unlisted) (hn : n < s.nodes.length) :
    s.parent (ccFind s n) = ccFind s n :=
  h.forest.root_isRoot hn

theorem CcInv.find_below (h : CcInv s eqs lists open' unlisted) (hn : n < s.nodes.length)
    (hbelow : Below s.parent n m) (hm : s.parent m = m) : ccFind s n = m := by
  obtain ⟨-, hroot⟩ := hbelow.root h.forest hn
  exact hroot.symm.trans (root_of_isRoot hm)

/-- A node that the table has under the key of an application is congruent to it. -/
theorem CcInv.congruent_of_has (h : CcInv s eqs lists open' unlisted)
    (hn : s.nodes[n]? = some (.app f as)) (hm : s.sig.Has (ccKey s f as) m) :
    m < s.nodes.length ∧ Congruent s.nodes eqs m n := by
  obtain ⟨f', bs, ks, hm', hkey, hbelow⟩ := h.keys _ _ hm
  obtain ⟨rfl, rfl⟩ := List.cons.inj hkey
  refine ⟨node_lt hm', .congr hm' hn ?_ ?_⟩
  · rw [hbelow.length_eq, List.length_map]
  · rintro ⟨b, a⟩ hp
    obtain ⟨hb, ha⟩ := List.of_mem_zip hp
    have hba : Below s.parent b (ccFind s a) := by
      rw [List.forall₂_map_right_iff] at hbelow
      exact (List.forall₂_iff_zip.mp hbelow).2 hp
    have hblt := h.args _ _ _ hm' b hb
    have halt := h.args _ _ _ hn a ha
    exact h.sound b hblt a halt (h.find_below hblt hba (h.find_root halt))

/-- The signature of an application leads to the representatives. -/
theorem CcInv.key_below (h : CcInv s eqs lists open' unlisted) (hargs : ∀ a ∈ as, a < s.nodes.length) :
    List.Forall₂ (Below s.parent) as (as.map (ccFind s)) := by
  rw [List.forall₂_map_right_iff, List.forall₂_same]
  exact fun a ha => h.forest.below_root (hargs a ha)

/-- A step that leaves the forest, the use lists and the disequalities alone. -/
structure Kept (s s' : CcState) : Prop where
  nodes : s'.nodes = s.nodes
  parent : s'.parent = s.parent
  rank : s'.rank = s.rank
  useHead : s'.useHead = s.useHead
  uses : s'.uses = s.uses
  ne : s'.ne = s.ne

theorem Kept.refl (s : CcState) : Kept s s := ⟨rfl, rfl, rfl, rfl, rfl, rfl⟩

theorem Kept.trans {s₁ s₂ s₃ : CcState} (h : Kept s₁ s₂) (h' : Kept s₂ s₃) : Kept s₁ s₃ :=
  ⟨h'.nodes.trans h.nodes, h'.parent.trans h.parent, h'.rank.trans h.rank,
    h'.useHead.trans h.useHead, h'.uses.trans h.uses, h'.ne.trans h.ne⟩

/-- One application is put under its new key, found to be there, or queued. -/
theorem CcInv.canonicalize (h : CcInv s eqs lists open' unlisted)
    (hn : s.nodes[n]? = some (.app f as)) :
    ∃ s', ccCanonicalize s n = some s' ∧ CcInv s' eqs lists (fun m => open' m ∧ m ≠ n) unlisted ∧
      Kept s s' ∧ Undoes s s' := by
  obtain ⟨slot, found, hrun, hfound⟩ := lookup_spec h.sigOk.wf (ccKey s f as)
  have hlookup : ccSigLookup s (ccKey s f as) = some (slot, found) := hrun
  cases found with
  | none =>
    obtain ⟨t', hput, hok, hhas, hundo⟩ := ccSigPut_spec h.sigOk hfound n
    refine ⟨{ s with sig := t', trail := .sigPut (ccKey s f as) :: s.trail }, ?_, ?_,
      ⟨rfl, rfl, rfl, rfl, rfl, rfl⟩, hundo⟩
    · simp only [ccCanonicalize, hn, ccSigKey, hlookup, Option.bind_eq_bind, Option.bind_some]
      exact hput
    · refine ⟨h.forest, h.fresh, h.args, h.linked, h.apps, hok, ?_, h.used, h.sound, h.pendSound,
        h.eqs, ?_⟩
      · intro key m hm
        rcases (hhas key m).mp hm with ⟨rfl, rfl⟩ | hold
        · exact ⟨f, as, _, hn, rfl, h.key_below (h.args _ _ _ hn)⟩
        · exact h.keys key m hold
      · intro m f' bs hm hopen
        by_cases hmn : m = n
        · subst hmn
          obtain ⟨rfl, rfl⟩ := CcNode.app.inj (Option.some.inj (hn.symm.trans hm))
          exact ⟨m, (hhas _ _).mpr (.inl ⟨rfl, rfl⟩), .refl _⟩
        · obtain ⟨k, hk, hjoined⟩ := h.closed m f' bs hm fun ho => hopen ⟨ho, hmn⟩
          exact ⟨k, (hhas _ _).mpr (.inr hk), hjoined⟩
  | some m =>
    have hm : s.sig.Has (ccKey s f as) m := by
      cases hfound with
      | hit hi hs => exact ⟨slot, hi, hs⟩
    have hstep : ccCanonicalize s n =
        some (if ccFind s m ≠ ccFind s n then s.pendPush m n else s) := by
      simp only [ccCanonicalize, hn, ccSigKey, hlookup, Option.bind_eq_bind, Option.bind_some]
    by_cases heq : ccFind s m = ccFind s n
    · refine ⟨s, by rw [hstep, if_neg (not_not.mpr heq)], ?_, .refl s, .refl s⟩
      refine ⟨h.forest, h.fresh, h.args, h.linked, h.apps, h.sigOk, h.keys, h.used, h.sound,
        h.pendSound, h.eqs, fun k f' bs hk hopen => ?_⟩
      by_cases hkn : k = n
      · subst hkn
        obtain ⟨rfl, rfl⟩ := CcNode.app.inj (Option.some.inj (hn.symm.trans hk))
        exact ⟨m, hm, .of_find heq⟩
      · exact h.closed k f' bs hk fun ho => hopen ⟨ho, hkn⟩
    · have hjoin : ∀ k k', Joined s k k' → Joined (s.pendPush m n) k k' := fun k k' hj =>
        hj.mono (fun _ _ hf => .rel _ _ (.inl hf)) fun _ _ hp => .of_pend (List.mem_cons_of_mem _ hp)
      refine ⟨s.pendPush m n, by rw [hstep, if_pos heq], ?_, ⟨rfl, rfl, rfl, rfl, rfl, rfl⟩,
        (Undoes.refl s).pend _⟩
      refine ⟨h.forest, h.fresh, h.args, h.linked, h.apps, h.sigOk, h.keys, h.used, h.sound, ?_, ?_,
        fun k f' bs hk hopen => ?_⟩
      · intro p hp
        rcases List.mem_cons.mp hp with rfl | hp
        · obtain ⟨hlt, hcongr⟩ := h.congruent_of_has hn hm
          exact ⟨hlt, node_lt hn, hcongr⟩
        · exact h.pendSound p hp
      · intro p hp
        obtain ⟨h₁, h₂, hj⟩ := h.eqs p hp
        exact ⟨h₁, h₂, hjoin _ _ hj⟩
      · by_cases hkn : k = n
        · subst hkn
          obtain ⟨rfl, rfl⟩ := CcNode.app.inj (Option.some.inj (hn.symm.trans hk))
          exact ⟨m, hm, .of_pend List.mem_cons_self⟩
        · obtain ⟨k', hk', hj⟩ := h.closed k f' bs hk fun ho => hopen ⟨ho, hkn⟩
          exact ⟨k', hk', hjoin _ _ hj⟩

theorem CcInv.weaken {open'' : ℕ → Prop} {unlisted' : ℕ → ℕ → Prop}
    (h : CcInv s eqs lists open' unlisted) (hopen : ∀ n, open' n → open'' n)
    (hunlisted : ∀ n a, unlisted n a → unlisted' n a) : CcInv s eqs lists open'' unlisted' :=
  ⟨h.forest, h.fresh, h.args, h.linked, h.apps, h.sigOk, h.keys,
    fun n f as hn a ha => (h.used n f as hn a ha).imp_left (hunlisted n a), h.sound, h.pendSound,
    h.eqs, fun n f as hn hno => h.closed n f as hn fun ho => hno (hopen n ho)⟩

/-- All applications of one use list. -/
theorem CcInv.canonUses (rounds : ℕ) {head : Option ℕ}
    (h : CcInv s eqs lists (Holds s.uses cs) unlisted) (hpath : Path (useNext s.uses) head cs)
    (hlt : ∀ c ∈ cs, c < s.uses.length) (hrounds : cs.length < rounds) :
    ∃ s', ccCanonUses rounds head s = some s' ∧ CcInv s' eqs lists (fun _ => False) unlisted ∧
      Kept s s' ∧ Undoes s s' := by
  induction cs generalizing s rounds head with
  | nil =>
    obtain ⟨rounds, rfl⟩ := Nat.exists_eq_add_of_lt hrounds
    obtain rfl : head = none := hpath
    refine ⟨s, rfl, h.weaken ?_ fun _ _ hu => hu, .refl s, .refl s⟩
    rintro n ⟨c, hc, -⟩
    cases hc
  | cons c cs ih =>
    obtain ⟨rounds, rfl⟩ := Nat.exists_eq_add_of_lt (Nat.zero_lt_of_lt hrounds)
    obtain ⟨rfl, hrest⟩ := hpath
    obtain ⟨⟨app, next⟩, hc⟩ : ∃ p, s.uses[c]? = some p :=
      ⟨_, List.getElem?_eq_getElem (hlt c List.mem_cons_self)⟩
    obtain ⟨f, as, hn⟩ := h.apps c _ hc
    obtain ⟨s₁, hrun₁, hinv₁, hkept₁, hundo₁⟩ := h.canonicalize hn
    have hopen : ∀ n, Holds s.uses (c :: cs) n ∧ n ≠ app → Holds s₁.uses cs n := by
      rintro n ⟨⟨c', hc', next', hnext⟩, hne⟩
      rw [hkept₁.uses]
      rcases List.mem_cons.mp hc' with rfl | hc'
      · rw [hc] at hnext
        exact absurd (congrArg Prod.fst (Option.some.inj hnext)).symm hne
      · exact ⟨c', hc', next', hnext⟩
    have hhead : useNext s.uses c = next := by rw [useNext, hc, Option.bind_some]
    rw [hhead] at hrest
    obtain ⟨s', hrun, hinv, hkept, hundo⟩ := ih (0 + rounds)
      (hinv₁.weaken hopen fun _ _ hu => hu) (by rw [hkept₁.uses]; exact hrest)
      (fun c' hc' => by rw [hkept₁.uses]; exact hlt c' (List.mem_cons_of_mem _ hc'))
      (by rw [List.length_cons] at hrounds; omega)
    refine ⟨s', ?_, hinv, hkept₁.trans hkept, hundo₁.trans hundo⟩
    simp only [ccCanonUses, hc, hrun₁, hkept₁.uses, Option.bind_eq_bind, Option.bind_some]
    exact hrun

theorem CcInv.find_out (h : CcInv s eqs lists open' unlisted) (hn : s.nodes.length ≤ n) :
    ccFind s n = n :=
  root_of_isRoot (h.fresh n hn).1

/-- Every node is equal to its representative. -/
theorem CcInv.congruent_find (h : CcInv s eqs lists open' unlisted) (hn : n < s.nodes.length) :
    Congruent s.nodes eqs n (ccFind s n) :=
  h.sound n hn _ (h.find_lt hn) (root_of_isRoot (h.find_root hn)).symm

/-- Two roots of classes that are to be merged, the second below the first. -/
structure Mergeable (s : CcState) (eqs : List (ℕ × ℕ)) (ra rb : ℕ) : Prop where
  lt : ra < s.nodes.length ∧ rb < s.nodes.length
  root : s.parent ra = ra ∧ s.parent rb = rb
  congr : Congruent s.nodes eqs ra rb
  rank : s.rank rb ≤ s.rank ra
  ne : ra ≠ rb

theorem CcInv.find_union (h : CcInv s eqs lists open' unlisted) (hm : Mergeable s eqs ra rb) (n : ℕ) :
    ccFind (ccUnion s ra rb) n = if ccFind s n = rb then ra else ccFind s n := by
  rcases Nat.lt_or_ge n s.nodes.length with hn | hn
  · exact h.forest.root_link hm.lt.1 hm.root.1 hm.root.2 hm.rank hm.ne hn
  · have hnb : n ≠ rb := fun heq => Nat.not_le.mpr hm.lt.2 (heq ▸ hn)
    rw [h.find_out hn, if_neg hnb]
    apply root_of_isRoot
    show Function.update s.parent rb ra n = n
    rw [Function.update_of_ne hnb, (h.fresh n hn).1]

/-- The union for a pending pair. The use list of `rb` is now to be canonicalized, and its
applications are not listed for `ra` yet. -/
theorem CcInv.union {pend : List (ℕ × ℕ)} (h : CcInv s eqs lists (fun _ => False) fun _ _ => False)
    (hm : Mergeable s eqs ra rb)
    (hpend : ∀ m n, (m, n) ∈ s.pend → (m, n) ∈ pend ∨
      ccFind (ccUnion s ra rb) m = ccFind (ccUnion s ra rb) n)
    (hsub : ∀ p ∈ pend, p ∈ s.pend) :
    CcInv (ccUnion { s with pend := pend } ra rb) eqs lists (Holds s.uses (lists rb))
      (fun n x => ccFind (ccUnion s ra rb) x = ra ∧ Holds s.uses (lists rb) n) := by
  have hfind := h.find_union hm
  have hjoin : ∀ m n, Joined s m n → Joined (ccUnion { s with pend := pend } ra rb) m n := by
    intro m n hj
    apply hj.mono
    · intro m n heq
      apply Joined.of_find
      show ccFind (ccUnion s ra rb) m = ccFind (ccUnion s ra rb) n
      rw [hfind, hfind, heq]
    · intro m n hp
      rcases hpend m n hp with hp | heq
      · exact .of_pend hp
      · exact .of_find heq
  have hcongr : ∀ n < s.nodes.length, Congruent s.nodes eqs n (ccFind (ccUnion s ra rb) n) := by
    intro n hn
    have hself := h.congruent_find hn
    rw [hfind]
    split
    · next hrb =>
      rw [hrb] at hself
      exact hself.trans hm.congr.symm
    · exact hself
  refine ⟨h.forest.link hm.lt.1 hm.root.1 hm.rank hm.ne, ?_, h.args, h.linked, h.apps, h.sigOk, ?_,
    ?_, ?_, fun p hp => h.pendSound p (hsub p hp), ?_, ?_⟩
  · intro n hn
    have hna : n ≠ ra := fun heq => Nat.not_le.mpr hm.lt.1 (heq ▸ hn)
    have hnb : n ≠ rb := fun heq => Nat.not_le.mpr hm.lt.2 (heq ▸ hn)
    obtain ⟨hparent, hrank, hhead⟩ := h.fresh n hn
    refine ⟨(Function.update_of_ne hnb _ _).trans hparent, ?_, hhead⟩
    show linkRank s.rank ra rb n = 0
    unfold linkRank
    split
    · rw [Function.update_of_ne hna, hrank]
    · exact hrank
  · intro key n hn
    obtain ⟨f, as, ks, hnode, hkey, hbelow⟩ := h.keys key n hn
    exact ⟨f, as, ks, hnode, hkey, hbelow.imp fun a k => Below.link hm.root.2⟩
  · intro n f as hn a ha
    rcases h.used n f as hn a ha with hfalse | hlisted
    · exact hfalse.elim
    · by_cases hrb : ccFind s a = rb
      · left
        refine ⟨(hfind a).trans (if_pos hrb), ?_⟩
        rwa [hrb] at hlisted
      · right
        show Holds s.uses (lists (ccFind (ccUnion s ra rb) a)) n
        rwa [hfind, if_neg hrb]
  · intro m hm' n hn heq
    have heq : ccFind (ccUnion s ra rb) m = ccFind (ccUnion s ra rb) n := heq
    have hself := hcongr m hm'
    rw [heq] at hself
    exact hself.trans (hcongr n hn).symm
  · intro p hp
    obtain ⟨h₁, h₂, hj⟩ := h.eqs p hp
    exact ⟨h₁, h₂, hjoin _ _ hj⟩
  · intro n f as hn hopen
    obtain ⟨m, hm', hj⟩ := h.closed n f as hn fun hfalse => hfalse
    refine ⟨m, ?_, hjoin _ _ hj⟩
    have hkey : ccKey (ccUnion { s with pend := pend } ra rb) f as = ccKey s f as := by
      unfold ccKey
      congr 1
      apply List.map_congr_left
      intro a ha
      show ccFind (ccUnion s ra rb) a = ccFind s a
      rw [hfind, if_neg]
      intro hrb
      rcases h.used n f as hn a ha with hfalse | hlisted
      · exact hfalse
      · exact hopen (hrb ▸ hlisted)
    rwa [hkey]

theorem ccUseTail_spec {uses : List (ℕ × Option ℕ)} {rounds : ℕ}
    (hpath : Path (useNext uses) (some c) cs) (hlt : ∀ c ∈ cs, c < uses.length)
    (hrounds : cs.length ≤ rounds) :
    ∃ init tail, cs = init ++ [tail] ∧ ccUseTail uses rounds c = some tail := by
  induction cs generalizing c rounds with
  | nil => cases hpath
  | cons c' cs ih =>
    obtain ⟨heq, hrest⟩ := hpath
    obtain rfl := Option.some.inj heq
    cases rounds with
    | zero => cases hrounds
    | succ rounds =>
      obtain ⟨⟨app, next⟩, hc⟩ : ∃ p, uses[c]? = some p :=
        ⟨_, List.getElem?_eq_getElem (hlt c List.mem_cons_self)⟩
      have hnext : useNext uses c = next := by rw [useNext, hc, Option.bind_some]
      rw [hnext] at hrest
      cases next with
      | none =>
        have hhead := hrest.head_eq
        obtain rfl : cs = [] := List.head?_eq_none_iff.mp hhead.symm
        refine ⟨[], c, rfl, ?_⟩
        simp only [ccUseTail, hc, Option.bind_eq_bind, Option.bind_some]
      | some c' =>
        obtain ⟨init, tail, rfl, htail⟩ := ih hrest (fun c hc => hlt c (List.mem_cons_of_mem _ hc))
          (Nat.le_of_succ_le_succ hrounds)
        refine ⟨c :: init, tail, rfl, ?_⟩
        simp only [ccUseTail, hc, Option.bind_eq_bind, Option.bind_some]
        exact htail

theorem length_le_of_lt {l : List ℕ} (hnodup : l.Nodup) (hlt : ∀ c ∈ l, c < n) : l.length ≤ n := by
  have hsub : l ⊆ List.range n := fun c hc => List.mem_range.mpr (hlt c hc)
  simpa using (List.subperm_of_subset hnodup hsub).length_le

theorem holds_modify {uses : List (ℕ × Option ℕ)} {i : ℕ} {q : Option ℕ} (h : Holds uses cs n) :
    Holds (uses.modify i fun cell => (cell.1, q)) cs n := by
  obtain ⟨c, hc, next, hcell⟩ := h
  by_cases hic : i = c
  · subst hic
    refine ⟨i, hc, q, ?_⟩
    simp [hcell]
  · refine ⟨c, hc, next, ?_⟩
    simp [hcell, hic]

theorem modify_fst {uses : List (ℕ × Option ℕ)} {i c : ℕ} {q : Option ℕ} {p : ℕ × Option ℕ}
    (h : (uses.modify i fun cell => (cell.1, q))[c]? = some p) :
    ∃ p', uses[c]? = some p' ∧ p'.1 = p.1 := by
  rw [List.getElem?_modify] at h
  obtain ⟨p', hp', heq⟩ := Option.map_eq_some_iff.mp h
  refine ⟨p', hp', ?_⟩
  subst heq
  split <;> rfl

theorem useNext_modify {uses : List (ℕ × Option ℕ)} {i c : ℕ} {q : Option ℕ}
    (hi : i < uses.length) : useNext (uses.modify i fun cell => (cell.1, q)) c =
      if c = i then q else useNext uses c := by
  unfold useNext
  by_cases hci : c = i
  · subst hci
    simp [List.getElem?_eq_getElem hi]
  · simp [hci, Ne.symm hci]

/-- The list of `rb` put before that of `ra`. -/
def spliced (lists : ℕ → List ℕ) (ra rb : ℕ) : ℕ → List ℕ :=
  Function.update (Function.update lists ra (lists rb ++ lists ra)) rb []

theorem mem_spliced {r : ℕ} (hne : ra ≠ rb) (hc : c ∈ spliced lists ra rb r) :
    (r = ra ∧ (c ∈ lists rb ∨ c ∈ lists ra)) ∨ (r ≠ ra ∧ r ≠ rb ∧ c ∈ lists r) := by
  unfold spliced at hc
  by_cases hrb : r = rb
  · subst hrb
    rw [Function.update_self] at hc
    cases hc
  · rw [Function.update_of_ne hrb] at hc
    by_cases hra : r = ra
    · subst hra
      rw [Function.update_self] at hc
      exact .inl ⟨rfl, List.mem_append.mp hc⟩
    · rw [Function.update_of_ne hra] at hc
      exact .inr ⟨hra, hrb, hc⟩

theorem Linked.splice {uses : List (ℕ × Option ℕ)} {useHead : ℕ → Option ℕ} {rbHead tail : ℕ}
    {init : List ℕ} (h : Linked uses useHead lists) (hne : ra ≠ rb) (hhead : useHead rb = some rbHead)
    (hlist : lists rb = init ++ [tail]) :
    Linked (uses.modify tail fun cell => (cell.1, useHead ra))
      (Function.update (Function.update useHead ra (some rbHead)) rb none) (spliced lists ra rb) := by
  have htail : tail ∈ lists rb := by simp [hlist]
  have hlt := h.lt rb tail htail
  have hnext : ∀ c, useNext (uses.modify tail fun cell => (cell.1, useHead ra)) c =
      if c = tail then useHead ra else useNext uses c := fun c => useNext_modify hlt
  have hpath : ∀ r, r ≠ rb → Path (useNext (uses.modify tail fun cell => (cell.1, useHead ra)))
      (useHead r) (lists r) := by
    intro r hr
    apply (h.path r).congr
    intro c hc
    rw [hnext, if_neg]
    rintro rfl
    exact hr (h.disjoint r rb c hc htail)
  refine ⟨?_, ?_, ?_, ?_⟩
  · intro r
    by_cases hrb : r = rb
    · subst hrb
      simp [spliced, LinkedLists.Path]
    · by_cases hra : r = ra
      · subst hra
        simp only [spliced, Function.update_of_ne hrb, Function.update_self]
        have hinit := h.path rb
        have hnodup := h.nodup rb
        rw [hhead, hlist] at hinit
        rw [hlist] at hnodup ⊢
        rw [List.append_assoc]
        apply hinit.splice
        · intro c hc
          rw [hnext, if_neg]
          rintro rfl
          exact (List.nodup_append.mp hnodup).2.2 c hc c (List.mem_singleton_self c) rfl
        · rw [hnext, if_pos rfl]
          exact hpath r hrb
      · simp only [spliced, Function.update_of_ne hrb, Function.update_of_ne hra]
        exact hpath r hrb
  · intro r c hc
    rw [List.length_modify]
    rcases mem_spliced hne hc with ⟨rfl, hc | hc⟩ | ⟨-, -, hc⟩
    · exact h.lt _ c hc
    · exact h.lt _ c hc
    · exact h.lt _ c hc
  · intro r
    unfold spliced
    by_cases hrb : r = rb
    · subst hrb
      simp
    · by_cases hra : r = ra
      · subst hra
        simp only [Function.update_of_ne hrb, Function.update_self]
        rw [List.nodup_append]
        refine ⟨h.nodup rb, h.nodup r, fun c hc c' hc' heq => ?_⟩
        subst heq
        exact hne (h.disjoint r rb c hc' hc)
      · simp only [Function.update_of_ne hrb, Function.update_of_ne hra]
        exact h.nodup r
  · intro r r' c hc hc'
    rcases mem_spliced hne hc with ⟨rfl, hold⟩ | ⟨hra, hrb, hold⟩
    · rcases mem_spliced hne hc' with ⟨rfl, -⟩ | ⟨hra', hrb', hold'⟩
      · rfl
      · rcases hold with hold | hold
        · exact absurd (h.disjoint _ _ c hold' hold) hrb'
        · exact absurd (h.disjoint _ _ c hold' hold) hra'
    · rcases mem_spliced hne hc' with ⟨rfl, hold' | hold'⟩ | ⟨-, -, hold'⟩
      · exact absurd (h.disjoint _ _ c hold hold') hrb
      · exact absurd (h.disjoint _ _ c hold hold') hra
      · exact h.disjoint r r' c hold hold'

/-- The applications that were listed for `rb` are now listed for `ra`. -/
theorem CcInv.useSplice (h : CcInv s eqs lists open' fun n x => ccFind s x = ra ∧ Holds s.uses (lists rb) n)
    (hne : ra ≠ rb) (hra : ra < s.nodes.length) (hrb : s.parent rb = ra) :
    ∃ s' lists', ccUseSplice s ra rb = some s' ∧ CcInv s' eqs lists' open' (fun _ _ => False) ∧
      s'.nodes = s.nodes ∧ s'.parent = s.parent ∧ s'.ne = s.ne ∧ Undoes s s' := by
  have hpath := h.linked.path rb
  cases hhead : s.useHead rb with
  | none =>
    rw [hhead] at hpath
    have hnil : lists rb = [] := List.head?_eq_none_iff.mp hpath.head_eq.symm
    refine ⟨s, lists, by rw [ccUseSplice, hhead], h.weaken (fun _ ho => ho) ?_, rfl, rfl, rfl, .refl s⟩
    rintro n x ⟨-, c, hc, -⟩
    rw [hnil] at hc
    cases hc
  | some rbHead =>
    rw [hhead] at hpath
    obtain ⟨init, tail, hlist, htail⟩ := ccUseTail_spec hpath (h.linked.lt rb)
      (length_le_of_lt (h.linked.nodup rb) (h.linked.lt rb))
    have hrun : ccUseSplice s ra rb = some
        { s.trailPush (.useSplice rb ra rbHead tail (s.useHead ra)) with
          uses := s.uses.modify tail fun cell => (cell.1, s.useHead ra)
          useHead := Function.update (Function.update s.useHead ra (some rbHead)) rb none } := by
      simp only [ccUseSplice, hhead, htail, Option.bind_eq_bind, Option.bind_some]
    refine ⟨_, spliced lists ra rb, hrun, ?_, rfl, rfl, rfl, undoes_useSplice hne hrun⟩
    refine ⟨h.forest, ?_, h.args, h.linked.splice hne hhead hlist, ?_, h.sigOk, h.keys, ?_, h.sound,
      h.pendSound, h.eqs, h.closed⟩
    · intro n hn
      obtain ⟨hparent, hrank, hnone⟩ := h.fresh n hn
      have hnb : n ≠ rb := fun heq => hne (by rw [← hrb, ← heq, hparent])
      have hna : n ≠ ra := fun heq => Nat.not_le.mpr hra (heq ▸ hn)
      refine ⟨hparent, hrank, ?_⟩
      show Function.update (Function.update s.useHead ra (some rbHead)) rb none n = none
      rw [Function.update_of_ne hnb, Function.update_of_ne hna, hnone]
    · intro c p hp
      obtain ⟨p', hp', heq⟩ := modify_fst hp
      obtain ⟨f, as, hn⟩ := h.apps c p' hp'
      exact ⟨f, as, heq ▸ hn⟩
    · intro n f as hn a ha
      right
      apply holds_modify
      show Holds s.uses (spliced lists ra rb (ccFind s a)) n
      have hnb : ccFind s a ≠ rb := by
        intro heq
        have hroot := h.find_root (h.args n f as hn a ha)
        rw [heq, hrb] at hroot
        exact hne hroot
      unfold spliced
      rw [Function.update_of_ne hnb]
      rcases h.used n f as hn a ha with ⟨hfind, c, hc, hcell⟩ | ⟨c, hc, hcell⟩
      · rw [hfind, Function.update_self]
        exact ⟨c, List.mem_append_left _ hc, hcell⟩
      · by_cases hfind : ccFind s a = ra
        · rw [hfind, Function.update_self]
          exact ⟨c, List.mem_append_right _ (hfind ▸ hc), hcell⟩
        · rw [Function.update_of_ne hfind]
          exact ⟨c, hc, hcell⟩

/-- One merge, in full. -/
theorem CcInv.merge {pend : List (ℕ × ℕ)} (h : CcInv s eqs lists (fun _ => False) fun _ _ => False)
    (hm : Mergeable s eqs ra rb)
    (hpend : ∀ m n, (m, n) ∈ s.pend → (m, n) ∈ pend ∨
      ccFind (ccUnion s ra rb) m = ccFind (ccUnion s ra rb) n)
    (hsub : ∀ p ∈ pend, p ∈ s.pend) :
    ∃ s' lists', ccMerge { s with pend := pend } ra rb = some s' ∧
      CcInv s' eqs lists' (fun _ => False) (fun _ _ => False) ∧ s'.nodes = s.nodes ∧
      s'.parent = Function.update s.parent rb ra ∧ s'.ne = s.ne ∧ Undoes s s' := by
  have hunion := h.union hm hpend hsub
  obtain ⟨s₁, hrun₁, hinv₁, hkept, hundo₁⟩ := hunion.canonUses (s.uses.length + 1)
    (h.linked.path rb) (h.linked.lt rb)
    (Nat.lt_succ_of_le (length_le_of_lt (h.linked.nodup rb) (h.linked.lt rb)))
  have hfind : ∀ x, ccFind s₁ x = ccFind (ccUnion s ra rb) x := by
    intro x
    unfold ccFind
    rw [hkept.nodes, hkept.parent]
    rfl
  have hinv₂ : CcInv s₁ eqs lists (fun _ => False) fun n x =>
      ccFind s₁ x = ra ∧ Holds s₁.uses (lists rb) n := by
    apply hinv₁.weaken fun _ ho => ho
    intro n x hu
    rw [hfind, hkept.uses]
    exact hu
  have hrb : s₁.parent rb = ra := by
    rw [hkept.parent]
    exact Function.update_self _ _ _
  obtain ⟨s', lists', hrun, hinv, hnodes, hparent, hne, hundo⟩ :=
    hinv₂.useSplice hm.ne (by rw [hkept.nodes]; exact hm.lt.1) hrb
  refine ⟨s', lists', ?_, hinv, hnodes.trans hkept.nodes, hparent.trans hkept.parent,
    hne.trans hkept.ne, ?_⟩
  · show (ccCanonUses (s.uses.length + 1) (s.useHead rb) (ccUnion { s with pend := pend } ra rb) >>=
      fun s => ccUseSplice s ra rb) = some s'
    rw [hrun₁]
    exact hrun
  · have hundo₀ : Undoes s (ccUnion s ra rb) := undoes_union hm.root.2
    have hpendUndo : Undoes s (ccUnion { s with pend := pend } ra rb) := hundo₀.pend pend
    exact (hpendUndo.trans hundo₁).trans hundo

end Thvm.CongruenceClosure
