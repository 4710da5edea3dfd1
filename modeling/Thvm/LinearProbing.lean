import Mathlib.Data.Finset.Card
import Mathlib.Data.Finset.Range
import Mathlib.Logic.Function.Basic
import Mathlib.Tactic.Common

/-!
# Open addressing with linear probing

A key is looked for from its home slot on, cyclically, up to the first empty slot.
Deletion shifts later entries back, so that no search stops too early.
-/

namespace Thvm.LinearProbing

/-- The number of steps forward from slot `a` to slot `b`. -/
def dist (cap a b : ℕ) : ℕ := (b + cap - a) % cap

section Distance

variable {cap a b c : ℕ}

theorem dist_eq (ha : a < cap) (hb : b < cap) :
    dist cap a b = if a ≤ b then b - a else b + cap - a := by
  unfold dist
  split
  · next h =>
    rw [Nat.sub_add_comm h, Nat.add_mod_right]
    exact Nat.mod_eq_of_lt (by omega)
  · exact Nat.mod_eq_of_lt (by omega)

theorem dist_lt (ha : a < cap) : dist cap a b < cap := Nat.mod_lt _ (by omega)

theorem dist_self (ha : a < cap) : dist cap a a = 0 := by
  rw [dist_eq ha ha, if_pos (Nat.le_refl a), Nat.sub_self]

theorem dist_inj (ha : a < cap) (hb : b < cap) (hc : c < cap)
    (h : dist cap a b = dist cap a c) : b = c := by
  rw [dist_eq ha hb, dist_eq ha hc] at h
  split at h <;> split at h <;> omega

theorem dist_add (ha : a < cap) (hb : b < cap) (hc : c < cap)
    (h : dist cap a b ≤ dist cap a c) : dist cap a c = dist cap a b + dist cap b c := by
  rw [dist_eq ha hb, dist_eq ha hc] at h
  rw [dist_eq ha hb, dist_eq ha hc, dist_eq hb hc]
  split_ifs at h ⊢ <;> omega

theorem succ_mod (hb : b < cap) : (b + 1) % cap = if b + 1 = cap then 0 else b + 1 := by
  split
  · next h => rw [h, Nat.mod_self]
  · exact Nat.mod_eq_of_lt (by omega)

theorem succ_lt (hb : b < cap) : (b + 1) % cap < cap := Nat.mod_lt _ (by omega)

theorem dist_succ (ha : a < cap) (hb : b < cap) (h : dist cap a b + 1 < cap) :
    dist cap a ((b + 1) % cap) = dist cap a b + 1 := by
  have hlt := succ_lt hb
  rw [dist_eq ha hb] at h
  rw [dist_eq ha hlt, dist_eq ha hb, succ_mod hb]
  split_ifs at h ⊢ <;> omega

/-- The next slot is one step away, when there are two slots. -/
theorem dist_next (ha : a < cap) (hb : b < cap) (h : a ≠ b) : dist cap b ((b + 1) % cap) = 1 := by
  have hsucc := dist_succ hb hb (by rw [dist_self hb]; omega)
  rwa [dist_self hb] at hsucc

theorem dist_succ_left (ha : a < cap) (hb : b < cap) (h : a ≠ b) :
    dist cap ((a + 1) % cap) b + 1 = dist cap a b := by
  have hlt := succ_lt ha
  rw [dist_eq ha hb, dist_eq hlt hb, succ_mod ha]
  split_ifs <;> omega

end Distance

variable {K V : Type}

structure Table (K V : Type) where
  cap : ℕ
  count : ℕ
  slots : ℕ → Option (K × V)

def empty (cap : ℕ) : Table K V := ⟨cap, 0, fun _ => none⟩

/-- Put an entry into a slot. -/
def Table.place (t : Table K V) (i : ℕ) (k : K) (v : V) : Table K V :=
  { t with slots := Function.update t.slots i (some (k, v)), count := t.count + 1 }

section Operations

variable [DecidableEq K] (hash : K → ℕ)

/-- The slot where the key is or belongs, and what is stored there. -/
def lookupFrom (t : Table K V) (k : K) : ℕ → ℕ → Option (ℕ × Option V)
  | 0, _ => none
  | rounds + 1, i =>
    match t.slots i with
    | none => some (i, none)
    | some (k', v) => if k' = k then some (i, some v) else lookupFrom t k rounds ((i + 1) % t.cap)

def lookup (t : Table K V) (k : K) : Option (ℕ × Option V) :=
  lookupFrom t k t.cap (hash k % t.cap)

/-- What is stored for a key. -/
def get (t : Table K V) (k : K) : Option V := (lookup hash t k).bind Prod.snd

/-- The entry in its slot is replaced. -/
def Table.replace (t : Table K V) (i : ℕ) (k : K) (v : V) : Table K V :=
  { t with slots := Function.update t.slots i (some (k, v)) }

/-- Insert or update; it is an insertion when the second part is true. -/
def put (t : Table K V) (k : K) (v : V) : Table K V × Bool :=
  match lookup hash t k with
  | none => (t, false)
  | some (i, none) => (t.place i k v, true)
  | some (i, some _) => (t.replace i k v, false)

def rehashFrom (slots : ℕ → Option (K × V)) : List ℕ → Table K V → Option (Table K V)
  | [], t => some t
  | i :: is, t =>
    match slots i with
    | none => rehashFrom slots is t
    | some (k, v) => do
      let (slot, _) ← lookup hash t k
      rehashFrom slots is (t.place slot k v)

/-- Move all entries to a table of twice the size. -/
def rehash (t : Table K V) : Option (Table K V) :=
  rehashFrom hash t.slots (List.range t.cap) (empty (t.cap * 2))

/-- Fill the hole with the entries behind it that may move there. -/
def shift (cap : ℕ) : ℕ → ℕ → ℕ → (ℕ → Option (K × V)) → Option (ℕ → Option (K × V))
  | 0, _, _, _ => none
  | rounds + 1, hole, i, slots =>
    match slots i with
    | none => some slots
    | some (k, v) =>
      if dist cap (hash k % cap) hole ≤ dist cap (hash k % cap) i then
        shift cap rounds i ((i + 1) % cap)
          (Function.update (Function.update slots hole (some (k, v))) i none)
      else shift cap rounds hole ((i + 1) % cap) slots

def erase (t : Table K V) (k : K) : Option (Table K V) := do
  let (slot, found) ← lookup hash t k
  if found.isNone then some t
  else
    let slots ← shift hash t.cap t.cap slot ((slot + 1) % t.cap) (Function.update t.slots slot none)
    some { t with slots := slots, count := t.count - 1 }

end Operations

/-- The table maps `k` to `v`. -/
def Table.Has (t : Table K V) (k : K) (v : V) : Prop := ∃ i < t.cap, t.slots i = some (k, v)

def occupied (cap : ℕ) (slots : ℕ → Option (K × V)) : Finset ℕ :=
  (Finset.range cap).filter fun i => slots i ≠ none

/-- No search for a stored key is stopped by an empty slot, and no key is stored twice. -/
structure Chained (hash : K → ℕ) (cap : ℕ) (slots : ℕ → Option (K × V)) : Prop where
  chain : ∀ i < cap, ∀ k v, slots i = some (k, v) → ∀ m < cap,
    dist cap (hash k % cap) m < dist cap (hash k % cap) i → slots m ≠ none
  unique : ∀ i < cap, ∀ j < cap, ∀ k v v', slots i = some (k, v) → slots j = some (k, v') → i = j

structure WellFormed (hash : K → ℕ) (t : Table K V) : Prop where
  chained : Chained hash t.cap t.slots
  count : t.count = (occupied t.cap t.slots).card
  room : t.count < t.cap

variable {hash : K → ℕ} {t : Table K V} {cap i j : ℕ} {k : K} {v : V} {slots : ℕ → Option (K × V)}

@[simp] theorem mem_occupied : i ∈ occupied cap slots ↔ i < cap ∧ slots i ≠ none := by
  simp [occupied]

theorem exists_empty (h : (occupied cap slots).card < cap) : ∃ e < cap, slots e = none := by
  by_contra hfull
  push Not at hfull
  have : Finset.range cap ⊆ occupied cap slots := by
    intro i hi
    have hlt := Finset.mem_range.mp hi
    exact mem_occupied.mpr ⟨hlt, hfull i hlt⟩
  have := Finset.card_le_card this
  rw [Finset.card_range] at this
  omega

theorem WellFormed.home_lt (h : WellFormed hash t) (k : K) : hash k % t.cap < t.cap :=
  Nat.mod_lt _ (Nat.zero_lt_of_lt h.room)

theorem WellFormed.has_inj (h : WellFormed hash t) {v' : V} (hv : t.Has k v) (hv' : t.Has k v') :
    v = v' := by
  obtain ⟨i, hi, hs⟩ := hv
  obtain ⟨j, hj, hs'⟩ := hv'
  obtain rfl := h.chained.unique i hi j hj k v v' hs hs'
  exact (Prod.mk.inj (Option.some.inj (hs.symm.trans hs'))).2

theorem empty_wellFormed (h : 0 < cap) : WellFormed hash (empty cap : Table K V) where
  chained :=
    { chain := fun i _ k v hs => nomatch hs
      unique := fun i _ j _ k v v' hs => nomatch hs }
  count := by simp [empty, occupied]
  room := h

theorem not_has_empty : ¬(empty cap : Table K V).Has k v := by
  rintro ⟨i, -, hs⟩
  cases hs

/-- What a search finds. -/
inductive Found (hash : K → ℕ) (t : Table K V) (k : K) : ℕ → Option V → Prop
  | hit {i : ℕ} {v : V} (hi : i < t.cap) (hs : t.slots i = some (k, v)) : Found hash t k i (some v)
  | miss {i : ℕ} (hi : i < t.cap) (hs : t.slots i = none) (hno : ∀ v, ¬t.Has k v)
      (hchain : ∀ m < t.cap, dist t.cap (hash k % t.cap) m < dist t.cap (hash k % t.cap) i →
        t.slots m ≠ none) : Found hash t k i none

variable [DecidableEq K]

/-- The search has passed other keys only; it ends before it comes back to its start. -/
theorem lookupFrom_spec (h : WellFormed hash t) {rounds : ℕ} (hi : i < t.cap)
    (hrounds : rounds + dist t.cap (hash k % t.cap) i = t.cap)
    (hpassed : ∀ m < t.cap, dist t.cap (hash k % t.cap) m < dist t.cap (hash k % t.cap) i →
      ∃ k' v, t.slots m = some (k', v) ∧ k' ≠ k) :
    ∃ j found, lookupFrom t k rounds i = some (j, found) ∧ Found hash t k j found := by
  have hhome := h.home_lt k
  induction rounds generalizing i with
  | zero =>
    have := dist_lt (b := i) hhome
    omega
  | succ rounds ih =>
    have hocc : ∀ m < t.cap, dist t.cap (hash k % t.cap) m < dist t.cap (hash k % t.cap) i →
        t.slots m ≠ none := by
      intro m hm hlt hnone
      obtain ⟨k', v, hs, -⟩ := hpassed m hm hlt
      rw [hnone] at hs
      cases hs
    cases hs : t.slots i with
    | none =>
      refine ⟨i, none, by rw [lookupFrom, hs], .miss hi hs ?_ hocc⟩
      rintro v ⟨j, hj, hjs⟩
      have hle : ¬dist t.cap (hash k % t.cap) i < dist t.cap (hash k % t.cap) j := fun hlt =>
        h.chained.chain j hj k v hjs i hi hlt hs
      rcases Nat.lt_or_eq_of_le (Nat.le_of_not_lt hle) with hlt | heq
      · obtain ⟨k', v', hs', hne⟩ := hpassed j hj hlt
        rw [hjs] at hs'
        exact hne (Prod.mk.inj (Option.some.inj hs')).1.symm
      · obtain rfl := dist_inj hhome hj hi heq
        rw [hs] at hjs
        cases hjs
    | some p =>
      obtain ⟨k', v⟩ := p
      by_cases hk : k' = k
      · subst hk
        refine ⟨i, some v, ?_, .hit hi hs⟩
        rw [lookupFrom, hs]
        exact if_pos rfl
      · obtain ⟨e, he, hempty⟩ := exists_empty (h.count ▸ h.room)
        have hpast : dist t.cap (hash k % t.cap) i < dist t.cap (hash k % t.cap) e := by
          apply Nat.lt_of_le_of_ne
          · exact Nat.le_of_not_lt fun hlt => hocc e he hlt hempty
          · intro heq
            obtain rfl := dist_inj hhome hi he heq
            rw [hs] at hempty
            cases hempty
        have hlt := dist_lt (b := e) hhome
        have hsucc := dist_succ hhome hi (by omega)
        obtain ⟨j, found, hrun, hfound⟩ := ih (succ_lt hi) (by omega) fun m hm hdist => by
          rw [hsucc] at hdist
          rcases Nat.lt_or_eq_of_le (Nat.le_of_lt_succ hdist) with hlt | heq
          · exact hpassed m hm hlt
          · obtain rfl := dist_inj hhome hm hi heq
            exact ⟨k', v, hs, hk⟩
        refine ⟨j, found, ?_, hfound⟩
        rw [lookupFrom, hs]
        exact (if_neg hk).trans hrun

theorem lookup_spec (h : WellFormed hash t) (k : K) :
    ∃ i found, lookup hash t k = some (i, found) ∧ Found hash t k i found := by
  have hhome := h.home_lt k
  apply lookupFrom_spec h hhome
  · rw [dist_self hhome, Nat.add_zero]
  · intro m _ hlt
    rw [dist_self hhome] at hlt
    exact absurd hlt (Nat.not_lt_zero _)

omit [DecidableEq K] in
theorem occupied_update (hi : i < cap) (p : K × V) :
    occupied cap (Function.update slots i (some p)) = insert i (occupied cap slots) := by
  ext j
  rw [mem_occupied, Finset.mem_insert, mem_occupied]
  by_cases hj : j = i
  · simp [hj, hi]
  · simp [hj]

omit [DecidableEq K] in
theorem update_some {k' : K} {v' : V} (hnone : slots i = none) :
    Function.update slots i (some (k, v)) j = some (k', v') ↔
      (j = i ∧ k = k' ∧ v = v') ∨ slots j = some (k', v') := by
  by_cases hj : j = i
  · subst hj
    simp [hnone]
  · simp [hj]

omit [DecidableEq K] in
/-- An insertion where the search for an absent key has ended. -/
theorem place_spec (h : WellFormed hash t) (hfound : Found hash t k i none)
    (hroom : t.count + 1 < t.cap) (v : V) :
    WellFormed hash (t.place i k v) ∧
      ∀ k' v', (t.place i k v).Has k' v' ↔ (k = k' ∧ v = v') ∨ t.Has k' v' := by
  cases hfound with
  | miss hi hs hno hchain =>
    have hkeep : ∀ m, t.slots m ≠ none → (t.place i k v).slots m ≠ none := by
      intro m hm
      by_cases hmi : m = i
      · simp [Table.place, hmi]
      · simpa [Table.place, hmi] using hm
    refine ⟨⟨⟨?_, ?_⟩, ?_, hroom⟩, ?_⟩
    · intro j hj k' v' hjs m hm hlt
      apply hkeep
      rcases (update_some hs).mp hjs with ⟨rfl, rfl, rfl⟩ | hjs
      · exact hchain m hm hlt
      · exact h.chained.chain j hj k' v' hjs m hm hlt
    · intro j hj j' hj' k' v' v'' hjs hjs'
      rcases (update_some hs).mp hjs with ⟨rfl, rfl, rfl⟩ | hold
      · rcases (update_some hs).mp hjs' with ⟨rfl, -, -⟩ | hold'
        · rfl
        · exact absurd ⟨j', hj', hold'⟩ (hno v'')
      · rcases (update_some hs).mp hjs' with ⟨rfl, rfl, rfl⟩ | hold'
        · exact absurd ⟨j, hj, hold⟩ (hno v')
        · exact h.chained.unique j hj j' hj' k' v' v'' hold hold'
    · show t.count + 1 = (occupied t.cap (Function.update t.slots i (some (k, v)))).card
      rw [occupied_update hi, Finset.card_insert_of_notMem (by simp [hs]), h.count]
    · intro k' v'
      constructor
      · rintro ⟨j, hj, hjs⟩
        rcases (update_some hs).mp hjs with ⟨-, hk, hv⟩ | hjs
        · exact .inl ⟨hk, hv⟩
        · exact .inr ⟨j, hj, hjs⟩
      · rintro (⟨rfl, rfl⟩ | ⟨j, hj, hjs⟩)
        · exact ⟨i, hi, (update_some hs).mpr (.inl ⟨rfl, rfl, rfl⟩)⟩
        · exact ⟨j, hj, (update_some hs).mpr (.inr hjs)⟩

theorem get_eq_some_iff (h : WellFormed hash t) : get hash t k = some v ↔ t.Has k v := by
  obtain ⟨i, found, hrun, hfound⟩ := lookup_spec h k
  rw [get, hrun, Option.bind_some]
  cases hfound with
  | hit hi hs =>
    constructor
    · intro hv
      obtain rfl := Option.some.inj hv
      exact ⟨i, hi, hs⟩
    · intro hv
      exact congrArg some (h.has_inj ⟨i, hi, hs⟩ hv)
  | miss hi hs hno hchain =>
    constructor
    · intro hv
      cases hv
    · intro hv
      exact absurd hv (hno v)

/-- Another value for a stored key. -/
theorem replace_spec (h : WellFormed hash t) {v₀ : V} (hi : i < t.cap)
    (hs : t.slots i = some (k, v₀)) (v : V) :
    WellFormed hash (t.replace i k v) ∧
      ∀ k' v', (t.replace i k v).Has k' v' ↔ if k' = k then v' = v else t.Has k' v' := by
  have hslot : ∀ j p, (t.replace i k v).slots j = some p ↔
      (j = i ∧ p = (k, v)) ∨ (j ≠ i ∧ t.slots j = some p) := by
    intro j p
    by_cases hj : j = i
    · simp [Table.replace, hj, eq_comm]
    · simp [Table.replace, hj]
  have hnone : ∀ j, (t.replace i k v).slots j ≠ none ↔ t.slots j ≠ none := by
    intro j
    by_cases hj : j = i
    · simp [Table.replace, hj, hs]
    · simp [Table.replace, hj]
  -- every new entry stands where its key stood
  have hold : ∀ j k' v', (t.replace i k v).slots j = some (k', v') →
      ∃ v'', t.slots j = some (k', v'') := by
    intro j k' v' hj
    rcases (hslot j _).mp hj with ⟨rfl, hp⟩ | ⟨-, hj⟩
    · obtain ⟨rfl, -⟩ := Prod.mk.inj hp
      exact ⟨v₀, hs⟩
    · exact ⟨v', hj⟩
  refine ⟨⟨⟨?_, ?_⟩, ?_, h.room⟩, ?_⟩
  · intro j hj k' v' hjs m hm hlt
    obtain ⟨v'', hjs⟩ := hold j k' v' hjs
    exact (hnone m).mpr (h.chained.chain j hj k' v'' hjs m hm hlt)
  · intro j hj j' hj' k' v' v'' hjs hjs'
    obtain ⟨_, hjs⟩ := hold j k' v' hjs
    obtain ⟨_, hjs'⟩ := hold j' k' v'' hjs'
    exact h.chained.unique j hj j' hj' k' _ _ hjs hjs'
  · show t.count = (occupied t.cap (t.replace i k v).slots).card
    rw [h.count]
    congr 1
    ext j
    rw [mem_occupied, mem_occupied, hnone]
  · intro k' v'
    split
    · next hk =>
      subst hk
      constructor
      · rintro ⟨j, hj, hjs⟩
        rcases (hslot j _).mp hjs with ⟨-, hp⟩ | ⟨hne, hjs⟩
        · exact (Prod.mk.inj hp).2
        · exact absurd (h.chained.unique j hj i hi _ _ _ hjs hs) hne
      · rintro rfl
        exact ⟨i, hi, (hslot i _).mpr (.inl ⟨rfl, rfl⟩)⟩
    · next hk =>
      constructor
      · rintro ⟨j, hj, hjs⟩
        rcases (hslot j _).mp hjs with ⟨-, hp⟩ | ⟨-, hjs⟩
        · exact absurd (Prod.mk.inj hp).1 hk
        · exact ⟨j, hj, hjs⟩
      · rintro ⟨j, hj, hjs⟩
        refine ⟨j, hj, (hslot j _).mpr (.inr ⟨?_, hjs⟩)⟩
        rintro rfl
        rw [hs] at hjs
        exact hk (Prod.mk.inj (Option.some.inj hjs)).1.symm

/-- All keys of the table come from a set with fewer elements than the table has slots. -/
structure Within (hash : K → ℕ) (S : Finset K) (t : Table K V) : Prop extends
    WellFormed hash t where
  keys : ∀ k v, t.Has k v → k ∈ S
  small : S.card < t.cap

variable {S : Finset K}

omit [DecidableEq K] in
theorem Within.count_le (h : Within hash S t) : t.count ≤ S.card := by
  classical
  have hentry : ∀ i ∈ occupied t.cap t.slots, ∃ p, t.slots i = some p := fun i hi =>
    Option.ne_none_iff_exists'.mp (mem_occupied.mp hi).2
  rw [h.count]
  refine Finset.card_le_card_of_surjOn (fun k => if hk : ∃ i < t.cap, ∃ v, t.slots i = some (k, v)
    then hk.choose else 0) ?_
  intro i hi
  obtain ⟨⟨k, v⟩, hs⟩ := hentry i hi
  have hlt := (mem_occupied.mp hi).1
  have hk : ∃ i < t.cap, ∃ v, t.slots i = some (k, v) := ⟨i, hlt, v, hs⟩
  refine ⟨k, h.keys k v ⟨i, hlt, hs⟩, ?_⟩
  obtain ⟨hlt', v', hs'⟩ := hk.choose_spec
  exact (dif_pos hk).trans (h.chained.unique _ hlt' i hlt k v' v hs' hs)

omit [DecidableEq K] in
theorem within_empty (hash : K → ℕ) {cap : ℕ} (h : S.card < cap) :
    Within hash S (empty cap : Table K V) where
  toWellFormed := empty_wellFormed (Nat.zero_lt_of_lt h)
  keys _ _ hv := absurd hv not_has_empty
  small := h

theorem get_empty (hash : K → ℕ) {cap : ℕ} (h : 0 < cap) (k : K) :
    get hash (empty cap : Table K V) k = none := by
  rw [Option.eq_none_iff_forall_ne_some]
  intro v hv
  exact not_has_empty ((get_eq_some_iff (empty_wellFormed h)).mp hv)

theorem get_of_has (h : WellFormed hash t) {f : K → Option V}
    (hf : ∀ k v, t.Has k v ↔ f k = some v) : get hash t = f := by
  funext k
  refine Option.ext fun v => ?_
  rw [get_eq_some_iff h, hf]

theorem put_spec (h : Within hash S t) (hk : k ∈ S) (v : V) :
    Within hash S (put hash t k v).1 ∧
      get hash (put hash t k v).1 = Function.update (get hash t) k (some v) := by
  obtain ⟨i, found, hrun, hfound⟩ := lookup_spec h.toWellFormed k
  rw [put, hrun]
  cases hfound with
  | hit hi hs =>
    obtain ⟨hwell, hhas⟩ := replace_spec h.toWellFormed hi hs v
    refine ⟨⟨hwell, fun k' v' hv => ?_, h.small⟩, get_of_has hwell fun k' v' => ?_⟩
    · rw [hhas] at hv
      split at hv
      · next heq => exact heq ▸ hk
      · exact h.keys k' v' hv
    · rw [hhas, Function.update_apply]
      split
      · rw [Option.some.injEq, eq_comm]
      · rw [get_eq_some_iff h.toWellFormed]
  | miss hi hs hno hchain =>
    -- the key is not among the stored ones, so that there is room for it
    have herase : Within hash (S.erase k) t :=
      { toWellFormed := h.toWellFormed
        keys := fun k' v' hv => Finset.mem_erase.mpr
          ⟨fun heq => hno v' (heq ▸ hv), h.keys k' v' hv⟩
        small := Nat.lt_of_le_of_lt (Finset.card_erase_le) h.small }
    have hcount := herase.count_le
    have hcard := Finset.card_erase_of_mem hk
    have hpos := Finset.card_pos.mpr ⟨k, hk⟩
    have hsmall := h.small
    obtain ⟨hwell, hhas⟩ := place_spec h.toWellFormed (.miss hi hs hno hchain) (by omega) v
    refine ⟨⟨hwell, fun k' v' hv => ?_, h.small⟩, get_of_has hwell fun k' v' => ?_⟩
    · rcases (hhas k' v').mp hv with ⟨rfl, -⟩ | hv
      · exact hk
      · exact h.keys k' v' hv
    · rw [hhas, Function.update_apply]
      split
      · next heq =>
        subst heq
        rw [Option.some.injEq, or_iff_left (hno v'), and_iff_right rfl]
      · next hne =>
        rw [get_eq_some_iff h.toWellFormed, or_iff_right fun heq => hne heq.1.symm]

/-- The table of the slots that have been moved so far. -/
theorem rehashFrom_spec (slots : ℕ → Option (K × V)) (done rest : List ℕ) (h : WellFormed hash t)
    (hunique : ∀ i ∈ done ++ rest, ∀ j ∈ done ++ rest, ∀ k v v', slots i = some (k, v) →
      slots j = some (k, v') → i = j)
    (hnodup : (done ++ rest).Nodup) (hcount : t.count ≤ done.length)
    (hroom : (done ++ rest).length < t.cap)
    (hhas : ∀ k v, t.Has k v ↔ ∃ i ∈ done, slots i = some (k, v)) :
    ∃ t', rehashFrom hash slots rest t = some t' ∧ WellFormed hash t' ∧ t'.cap = t.cap ∧
      t'.count ≤ (done ++ rest).length ∧
      ∀ k v, t'.Has k v ↔ ∃ i ∈ done ++ rest, slots i = some (k, v) := by
  induction rest generalizing done t with
  | nil =>
    rw [List.append_nil] at *
    exact ⟨t, rfl, h, rfl, hcount, hhas⟩
  | cons i rest ih =>
    rw [List.append_cons] at *
    cases hs : slots i with
    | none =>
      rw [rehashFrom, hs]
      apply ih (done ++ [i]) h hunique hnodup (hcount.trans (by simp)) hroom
      intro k v
      rw [hhas]
      constructor
      · rintro ⟨j, hj, hjs⟩
        exact ⟨j, List.mem_append_left _ hj, hjs⟩
      · rintro ⟨j, hj, hjs⟩
        rcases List.mem_append.mp hj with hj | hj
        · exact ⟨j, hj, hjs⟩
        · rw [List.mem_singleton.mp hj, hs] at hjs
          cases hjs
    | some p =>
      obtain ⟨k, v⟩ := p
      have hi : i ∈ done ++ [i] ++ rest := by simp
      obtain ⟨slot, found, hrun, hfound⟩ := lookup_spec h k
      have hno : ∀ v', ¬t.Has k v' := by
        intro v' hv'
        obtain ⟨j, hj, hjs⟩ := (hhas k v').mp hv'
        obtain rfl := hunique i hi j (by simp [hj]) k v v' hs hjs
        rw [List.nodup_append, List.nodup_append] at hnodup
        exact hnodup.1.2.2 i hj i (List.mem_singleton_self i) rfl
      cases found with
      | some v' =>
        cases hfound with
        | hit hslot hs' => exact absurd ⟨slot, hslot, hs'⟩ (hno v')
      | none =>
        simp only [List.length_append, List.length_singleton] at hroom
        obtain ⟨hplaced, hplacedHas⟩ := place_spec h hfound (by omega) v
        rw [rehashFrom, hs]
        simp only [hrun, Option.bind_eq_bind, Option.bind_some]
        apply ih (done ++ [i]) hplaced hunique hnodup
        · simp only [Table.place, List.length_append, List.length_singleton]
          omega
        · simp only [Table.place, List.length_append, List.length_singleton]
          omega
        · intro k' v'
          rw [hplacedHas, hhas]
          constructor
          · rintro (⟨rfl, rfl⟩ | ⟨j, hj, hjs⟩)
            · exact ⟨i, by simp, hs⟩
            · exact ⟨j, List.mem_append_left _ hj, hjs⟩
          · rintro ⟨j, hj, hjs⟩
            rcases List.mem_append.mp hj with hj | hj
            · exact .inr ⟨j, hj, hjs⟩
            · rw [List.mem_singleton.mp hj, hs] at hjs
              obtain ⟨rfl, rfl⟩ := Prod.mk.inj (Option.some.inj hjs)
              exact .inl ⟨rfl, rfl⟩

/-- A table of twice the size has the same entries. -/
theorem rehash_spec (h : WellFormed hash t) :
    ∃ t', rehash hash t = some t' ∧ WellFormed hash t' ∧ t'.cap = t.cap * 2 ∧ t'.count ≤ t.cap ∧
      ∀ k v, t'.Has k v ↔ t.Has k v := by
  have hpos := Nat.zero_lt_of_lt h.room
  obtain ⟨t', hrun, hwf, hcap, hcount, hhas⟩ := rehashFrom_spec t.slots []
    (List.range t.cap) (empty_wellFormed (by omega) : WellFormed hash (empty (t.cap * 2) : Table K V))
    (fun i hi j hj k v v' => h.chained.unique i (List.mem_range.mp hi) j (List.mem_range.mp hj) k v v')
    (by simpa using List.nodup_range) (Nat.zero_le _) (by simp [empty]; omega)
    (fun k v => by simp [not_has_empty])
  refine ⟨t', hrun, hwf, hcap, by simpa using hcount, fun k v => ?_⟩
  rw [hhas]
  simp [Table.Has]

/-- The slots while a hole is being filled: all slots between the hole and slot `i` hold
entries that must stay behind the hole, and only searches through the hole are broken. -/
structure Shifting (hash : K → ℕ) (cap : ℕ) (slots : ℕ → Option (K × V)) (hole i : ℕ) : Prop where
  hole_lt : hole < cap
  lt : i < cap
  ne : hole ≠ i
  empty : slots hole = none
  between : ∀ m < cap, m ≠ hole → dist cap hole m < dist cap hole i → slots m ≠ none
  chain : ∀ j < cap, ∀ k v, slots j = some (k, v) → ∀ m < cap,
    dist cap (hash k % cap) m < dist cap (hash k % cap) j → slots m ≠ none ∨ m = hole
  passed : ∀ j < cap, ∀ k v, slots j = some (k, v) → dist cap hole j < dist cap hole i →
    ¬dist cap (hash k % cap) hole < dist cap (hash k % cap) j
  unique : ∀ i < cap, ∀ j < cap, ∀ k v v', slots i = some (k, v) → slots j = some (k, v') → i = j

variable {hole e : ℕ}

omit [DecidableEq K] in
/-- At an empty slot no search goes through the hole any more. -/
theorem Shifting.done (h : Shifting hash cap slots hole i) (hi : slots i = none) :
    Chained hash cap slots where
  chain := by
    intro j hj k v hjs m hm hlt
    have hhome : hash k % cap < cap := Nat.mod_lt _ (by omega)
    rcases h.chain j hj k v hjs m hm hlt with hocc | rfl
    · exact hocc
    rcases Nat.lt_or_ge (dist cap m j) (dist cap m i) with hbefore | hafter
    · exact absurd hlt (h.passed j hj k v hjs hbefore)
    · exfalso
      have hpast : dist cap m i < dist cap m j := by
        apply Nat.lt_of_le_of_ne hafter
        intro heq
        obtain rfl := dist_inj hm h.lt hj heq
        rw [hi] at hjs
        cases hjs
      have hj' := dist_add hhome hm hj hlt.le
      have hi' : dist cap (hash k % cap) i < dist cap (hash k % cap) j := by
        rcases Nat.lt_or_ge (dist cap (hash k % cap) i) (dist cap (hash k % cap) j) with hlt' | hge
        · exact hlt'
        · have := dist_add hhome hm h.lt (hlt.le.trans hge)
          omega
      rcases h.chain j hj k v hjs i h.lt hi' with hocc | heq
      · exact hocc hi
      · exact h.ne heq.symm
  unique := h.unique

omit [DecidableEq K] in
theorem Shifting.ahead (h : Shifting hash cap slots hole i) (he : e < cap) (hne : e ≠ hole)
    (hempty : slots e = none) (hie : i ≠ e) : dist cap hole i < dist cap hole e := by
  apply Nat.lt_of_le_of_ne
  · apply Nat.le_of_not_lt
    intro hlt
    exact h.between e he hne hlt hempty
  · intro heq
    exact hie (dist_inj h.hole_lt h.lt he heq)

omit [DecidableEq K] in
/-- The entry at `i` stays. -/
theorem Shifting.stay (h : Shifting hash cap slots hole i) (hs : slots i = some (k, v))
    (hroom : dist cap hole i + 1 < cap)
    (hstay : ¬dist cap (hash k % cap) hole ≤ dist cap (hash k % cap) i) :
    Shifting hash cap slots hole ((i + 1) % cap) := by
  have hsucc := dist_succ h.hole_lt h.lt hroom
  refine ⟨h.hole_lt, succ_lt h.lt, ?_, h.empty, ?_, h.chain, ?_, h.unique⟩
  · intro heq
    rw [← heq, dist_self h.hole_lt] at hsucc
    omega
  · intro m hm hne hlt hnone
    rw [hsucc] at hlt
    rcases Nat.lt_or_eq_of_le (Nat.le_of_lt_succ hlt) with hlt | heq
    · exact h.between m hm hne hlt hnone
    · obtain rfl := dist_inj h.hole_lt hm h.lt heq
      rw [hs] at hnone
      cases hnone
  · intro j hj k' v' hjs hlt
    rw [hsucc] at hlt
    rcases Nat.lt_or_eq_of_le (Nat.le_of_lt_succ hlt) with hlt | heq
    · exact h.passed j hj k' v' hjs hlt
    · obtain rfl := dist_inj h.hole_lt hj h.lt heq
      obtain ⟨rfl, rfl⟩ := Prod.mk.inj (Option.some.inj (hs.symm.trans hjs))
      omega

omit [DecidableEq K] in
theorem update_move {p : K × V} {q : K × V} (hne : hole ≠ i) :
    Function.update (Function.update slots hole (some p)) i none j = some q ↔
      (j = hole ∧ p = q) ∨ (j ≠ hole ∧ j ≠ i ∧ slots j = some q) := by
  by_cases hji : j = i
  · subst hji
    simp [hne.symm]
  · by_cases hjh : j = hole
    · subst hjh
      simp [hji]
    · simp [hji, hjh]

omit [DecidableEq K] in
/-- The entry at `i` moves into the hole. -/
theorem Shifting.move (h : Shifting hash cap slots hole i) (hs : slots i = some (k, v))
    (hmove : dist cap (hash k % cap) hole ≤ dist cap (hash k % cap) i) :
    Shifting hash cap (Function.update (Function.update slots hole (some (k, v))) i none) i
      ((i + 1) % cap) := by
  have hsucc : dist cap i ((i + 1) % cap) = 1 := dist_next h.hole_lt h.lt h.ne
  have hhome : hash k % cap < cap := Nat.mod_lt _ (Nat.zero_lt_of_lt h.lt)
  have hnear : ∀ j < cap, dist cap i j < dist cap i ((i + 1) % cap) → j = i := by
    intro j hj hlt
    apply dist_inj h.lt hj h.lt
    rw [dist_self h.lt]
    omega
  have hkeep : ∀ m, slots m ≠ none ∨ m = hole →
      Function.update (Function.update slots hole (some (k, v))) i none m ≠ none ∨ m = i := by
    intro m hm
    by_cases hmi : m = i
    · exact .inr hmi
    · left
      by_cases hmh : m = hole
      · subst hmh
        simp [hmi]
      · simpa [hmi, hmh] using hm
  refine ⟨h.lt, succ_lt h.lt, ?_, Function.update_self _ _ _, ?_, ?_, ?_, ?_⟩
  · intro heq
    rw [← heq, dist_self h.lt] at hsucc
    omega
  · intro m hm hne hlt
    exact absurd (hnear m hm hlt) hne
  · intro j hj k' v' hjs m hm hlt
    rcases (update_move h.ne).mp hjs with ⟨rfl, hp⟩ | ⟨-, -, hold⟩
    · obtain ⟨rfl, rfl⟩ := Prod.mk.inj hp
      exact hkeep m (h.chain i h.lt k v hs m hm (lt_of_lt_of_le hlt hmove))
    · exact hkeep m (h.chain j hj k' v' hold m hm hlt)
  · intro j hj k' v' hjs hlt
    obtain rfl := hnear j hj hlt
    rw [Function.update_self] at hjs
    cases hjs
  · intro j hj j' hj' k' v' v'' hjs hjs'
    rcases (update_move h.ne).mp hjs with ⟨rfl, hp⟩ | ⟨-, hji, hold⟩
    · obtain ⟨rfl, rfl⟩ := Prod.mk.inj hp
      rcases (update_move h.ne).mp hjs' with ⟨rfl, -⟩ | ⟨-, hji', hold'⟩
      · rfl
      · exact absurd (h.unique j' hj' i h.lt k v'' v hold' hs) hji'
    · rcases (update_move h.ne).mp hjs' with ⟨rfl, hp'⟩ | ⟨-, -, hold'⟩
      · obtain ⟨rfl, rfl⟩ := Prod.mk.inj hp'
        exact absurd (h.unique j hj i h.lt k v' v hold hs) hji
      · exact h.unique j hj j' hj' k' v' v'' hold hold'

omit [DecidableEq K] in
theorem occupied_move (hole_lt : hole < cap) (hi : i < cap) (hempty : slots hole = none)
    (hs : slots i = some (k, v)) (hne : hole ≠ i) :
    (occupied cap (Function.update (Function.update slots hole (some (k, v))) i none)).card =
      (occupied cap slots).card := by
  have heq : occupied cap (Function.update (Function.update slots hole (some (k, v))) i none) =
      insert hole ((occupied cap slots).erase i) := by
    ext j
    rw [mem_occupied, Finset.mem_insert, Finset.mem_erase, mem_occupied]
    by_cases hji : j = i
    · subst hji
      simp [hne.symm]
    · by_cases hjh : j = hole
      · subst hjh
        simp [hji, hole_lt]
      · simp [hji, hjh]
  have hmem : i ∈ occupied cap slots := mem_occupied.mpr ⟨hi, by simp [hs]⟩
  rw [heq, Finset.card_insert_of_notMem (by simp [hempty]), Finset.card_erase_add_one hmem]

omit [DecidableEq K] in
/-- The shift ends at the next empty slot; it keeps all entries. -/
theorem shift_spec (rounds : ℕ) (h : Shifting hash cap slots hole i) (he : e < cap)
    (hne : e ≠ hole) (hempty : slots e = none) (hrounds : dist cap i e < rounds) :
    ∃ slots', shift hash cap rounds hole i slots = some slots' ∧ Chained hash cap slots' ∧
      (occupied cap slots').card = (occupied cap slots).card ∧
      ∀ k v, (∃ j < cap, slots' j = some (k, v)) ↔ ∃ j < cap, slots j = some (k, v) := by
  induction rounds generalizing hole i slots with
  | zero => exact absurd hrounds (Nat.not_lt_zero _)
  | succ rounds ih =>
    cases hs : slots i with
    | none => exact ⟨slots, by rw [shift, hs], h.done hs, rfl, fun k v => Iff.rfl⟩
    | some p =>
      obtain ⟨k, v⟩ := p
      have hie : i ≠ e := by
        intro heq
        rw [heq, hempty] at hs
        cases hs
      have hnext := dist_succ_left h.lt he hie
      by_cases hmove : dist cap (hash k % cap) hole ≤ dist cap (hash k % cap) i
      · obtain ⟨slots', hrun, hchained, hcard, hhas⟩ := ih (h.move hs hmove) hie.symm
          (by simp [hie.symm, hne, hempty]) (by omega)
        refine ⟨slots', ?_, hchained, hcard.trans (occupied_move h.hole_lt h.lt h.empty hs h.ne),
          fun k' v' => (hhas k' v').trans ?_⟩
        · rw [shift, hs]
          exact (if_pos hmove).trans hrun
        · constructor
          · rintro ⟨j, hj, hjs⟩
            rcases (update_move h.ne).mp hjs with ⟨-, hp⟩ | ⟨-, -, hold⟩
            · exact ⟨i, h.lt, hp ▸ hs⟩
            · exact ⟨j, hj, hold⟩
          · rintro ⟨j, hj, hjs⟩
            by_cases hji : j = i
            · subst hji
              exact ⟨hole, h.hole_lt, (update_move h.ne).mpr
                (.inl ⟨rfl, Option.some.inj (hs.symm.trans hjs)⟩)⟩
            · refine ⟨j, hj, (update_move h.ne).mpr (.inr ⟨?_, hji, hjs⟩)⟩
              rintro rfl
              rw [h.empty] at hjs
              cases hjs
      · have hahead := h.ahead he hne hempty hie
        have hlt := dist_lt (b := e) h.hole_lt
        obtain ⟨slots', hrun, hrest⟩ := ih (h.stay hs (by omega) hmove) hne hempty (by omega)
        refine ⟨slots', ?_, hrest⟩
        rw [shift, hs]
        exact (if_neg hmove).trans hrun

omit [DecidableEq K] in
theorem update_none {q : K × V} :
    Function.update slots i none j = some q ↔ j ≠ i ∧ slots j = some q := by
  by_cases hj : j = i
  · simp [hj]
  · simp [hj]

omit [DecidableEq K] in
/-- A hole where an entry was. -/
theorem Chained.shifting (h : Chained hash cap slots) (hi : i < cap) (he : e < cap) (hne : e ≠ i) :
    Shifting hash cap (Function.update slots i none) i ((i + 1) % cap) := by
  have hsucc := dist_next he hi hne
  have hnear : ∀ j < cap, dist cap i j < dist cap i ((i + 1) % cap) → j = i := by
    intro j hj hlt
    apply dist_inj hi hj hi
    rw [dist_self hi]
    omega
  refine ⟨hi, succ_lt hi, ?_, Function.update_self _ _ _, ?_, ?_, ?_, ?_⟩
  · intro heq
    rw [← heq, dist_self hi] at hsucc
    omega
  · intro m hm hmi hlt
    exact absurd (hnear m hm hlt) hmi
  · intro j hj k v hjs m hm hlt
    by_cases hmi : m = i
    · exact .inr hmi
    · left
      rw [Function.update_of_ne hmi]
      exact h.chain j hj k v (update_none.mp hjs).2 m hm hlt
  · intro j hj k v hjs hlt
    exact absurd (hnear j hj hlt) (update_none.mp hjs).1
  · intro j hj j' hj' k v v' hjs hjs'
    exact h.unique j hj j' hj' k v v' (update_none.mp hjs).2 (update_none.mp hjs').2

omit [DecidableEq K] in
theorem occupied_erase (hi : i < cap) (hs : slots i ≠ none) :
    (occupied cap (Function.update slots i none)).card + 1 = (occupied cap slots).card := by
  have heq : occupied cap (Function.update slots i none) = (occupied cap slots).erase i := by
    ext j
    rw [mem_occupied, Finset.mem_erase, mem_occupied]
    by_cases hj : j = i
    · simp [hj]
    · simp [hj]
  rw [heq, Finset.card_erase_add_one (mem_occupied.mpr ⟨hi, hs⟩)]

theorem erase_spec (h : WellFormed hash t) (k : K) :
    ∃ t', erase hash t k = some t' ∧ WellFormed hash t' ∧ t'.cap = t.cap ∧ t'.count ≤ t.count ∧
      ∀ k' v, t'.Has k' v ↔ k' ≠ k ∧ t.Has k' v := by
  obtain ⟨i, found, hrun, hfound⟩ := lookup_spec h k
  cases hfound with
  | miss hi hs hno hchain =>
    refine ⟨t, ?_, h, rfl, Nat.le_refl _, fun k' v => ⟨fun hv => ⟨?_, hv⟩, fun hv => hv.2⟩⟩
    · simp only [erase, hrun, Option.bind_eq_bind, Option.bind_some, Option.isNone_none, if_true]
    · rintro rfl
      exact hno v hv
  | hit hi hs =>
    obtain ⟨e, he, hempty⟩ := exists_empty (h.count ▸ h.room)
    have hei : e ≠ i := by
      rintro rfl
      rw [hs] at hempty
      cases hempty
    obtain ⟨slots', hshift, hchained, hcard, hhas⟩ := shift_spec t.cap
      (h.chained.shifting hi he hei) he hei ((Function.update_of_ne hei _ _).trans hempty)
      (dist_lt (succ_lt hi))
    have hcount := occupied_erase hi (by simp [hs] : t.slots i ≠ none)
    have hold := h.count
    have hroom := h.room
    refine ⟨{ t with slots := slots', count := t.count - 1 }, ?_, ⟨hchained, ?_, ?_⟩, rfl,
      Nat.sub_le _ _, fun k' v' => (hhas k' v').trans ?_⟩
    · simp only [erase, hrun, Option.bind_eq_bind, Option.bind_some, Option.isNone_some,
        Bool.false_eq_true, if_false, hshift]
    · show t.count - 1 = _
      rw [hcard]
      omega
    · show t.count - 1 < t.cap
      omega
    · constructor
      · rintro ⟨j, hj, hjs⟩
        obtain ⟨hji, hjs⟩ := update_none.mp hjs
        refine ⟨?_, j, hj, hjs⟩
        rintro rfl
        exact hji (h.chained.unique j hj i hi k' v' _ hjs hs)
      · rintro ⟨hne, j, hj, hjs⟩
        refine ⟨j, hj, update_none.mpr ⟨?_, hjs⟩⟩
        rintro rfl
        exact hne (Prod.mk.inj (Option.some.inj (hjs.symm.trans hs))).1

end Thvm.LinearProbing
