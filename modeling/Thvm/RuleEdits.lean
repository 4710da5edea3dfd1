import Thvm.RuleSlotsRuns

/-!
# Edits of the rules

What happens to the rules between two uses of a structure that was built from them. What the
revision counter has moved more than the number of rules never goes down, and stays as it is
only while rules are added or composed.
-/

namespace Thvm.Atp
open SlotColumns

/-- `compact` takes a rule out, in the first or in a later pass, `orient` is the flip of
`thvm_atp_install_oriented_rule`, and `touch` stands for whatever leaves the sides, the flags, the
number and the revision alone. -/
inductive RuleEdit
  | push (lhs rhs : FTerm)
  | softDelete (i : ℕ)
  | compact (firstPass : Bool) (i : ℕ)
  | compose (i : ℕ) (rhs : FTerm)
  | orient (i : ℕ)
  | touch (rules : RuleSlots)

/-- The slot whose right side the edit replaces. -/
def RuleEdit.composes : RuleEdit → List ℕ
  | .compose i _ => [i]
  | _ => []

namespace RuleSlots

variable (w : RuleWorld) (o : RuleOptions) (s : RuleSlots)

def edit : RuleEdit → RuleSlots
  | .push lhs rhs => (s.atpPushRule w o lhs rhs).2
  | .softDelete i => s.softDelete i
  | .compact firstPass i => s.dropSlot (if firstPass then s.shiftSlots i else s.shiftSlotsPass2 i) i
  | .compose i rhs => s.setRhs w i rhs
  | .orient i =>
    { s with
      rOrient := Function.update s.rOrient i true
      nUnorient := s.nUnorient - 1
      rRevision := s.rRevision + 1 }
  | .touch rules => rules

/-- The slots that an edit is about are in use. -/
def EditAllowed : RuleEdit → Prop
  | .push _ _ => True
  | .softDelete i => i < s.nRules
  | .compact _ i => i < s.nRules
  | .compose i _ => i < s.nRules
  | .orient i => i < s.nRules
  | .touch rules => rules.lhs = s.lhs ∧ rules.rhs = s.rhs ∧ rules.rOrient = s.rOrient ∧
      rules.nRules = s.nRules ∧ rules.rRevision = s.rRevision

end RuleSlots

/-- The revision moves at least as much as the number of rules, and if it does not move more, then
the old rules stay where they are, but for the right sides of some. -/
structure Advances (touched : ℕ → Prop) (s s' : RuleSlots) : Prop where
  revision : s.rRevision ≤ s'.rRevision
  excess : s.rRevision + s'.nRules ≤ s'.rRevision + s.nRules
  kept : s.rRevision + s'.nRules = s'.rRevision + s.nRules → s.nRules ≤ s'.nRules ∧
    ∀ i < s.nRules, ¬ touched i → s'.lhs i = s.lhs i ∧ s'.rhs i = s.rhs i

/-- Rules are only marked dead. -/
structure Fades (s s' : RuleSlots) : Prop where
  nRules : s'.nRules = s.nRules
  revision : s.rRevision ≤ s'.rRevision
  kept : s'.rRevision = s.rRevision → s'.lhs = s.lhs ∧ s'.rhs = s.rhs

section
variable {w : RuleWorld} {o : RuleOptions} {s s' s'' : RuleSlots} {lhs rhs : FTerm}
  {touched : ℕ → Prop}

theorem Fades.refl : Fades s s := ⟨rfl, le_rfl, fun _ => ⟨rfl, rfl⟩⟩

theorem Fades.trans (h : Fades s s') (h' : Fades s' s'') : Fades s s'' := by
  refine ⟨h'.nRules.trans h.nRules, h.revision.trans h'.revision, fun heq => ?_⟩
  have hle := h.revision
  have hle' := h'.revision
  obtain ⟨hl, hr⟩ := h.kept (by omega)
  obtain ⟨hl', hr'⟩ := h'.kept (by omega)
  exact ⟨hl'.trans hl, hr'.trans hr⟩

theorem fades_softDelete (i : ℕ) : Fades s (s.softDelete i) :=
  ⟨rfl, Nat.le_succ _, fun h => absurd h (Nat.succ_ne_self _)⟩

theorem fades_bwdSubsume (new : FTerm × FTerm) (i : ℕ) : Fades s (s.bwdSubsume new i) := by
  unfold RuleSlots.bwdSubsume
  split
  · exact .refl
  · split
    · exact fades_softDelete i
    · exact .refl

theorem fades_foldl_bwdSubsume (new : FTerm × FTerm) (is : List ℕ) :
    Fades s (is.foldl (fun s i => s.bwdSubsume new i) s) := by
  induction is generalizing s with
  | nil => exact .refl
  | cons i is ih => exact (fades_bwdSubsume new i).trans ih

theorem ensure_sides (s : RuleSlots) (need : ℕ) : (s.atpEnsureRuleCap need).lhs = s.lhs ∧
    (s.atpEnsureRuleCap need).rhs = s.rhs ∧
    (s.atpEnsureRuleCap need).rRevision = s.rRevision := by
  unfold RuleSlots.atpEnsureRuleCap
  split
  · exact ⟨rfl, rfl, rfl⟩
  · exact ⟨rfl, rfl, rfl⟩

theorem Advances.of_same (hn : s'.nRules = s.nRules) (hrev : s'.rRevision = s.rRevision)
    (h : ∀ i < s.nRules, ¬ touched i → s'.lhs i = s.lhs i ∧ s'.rhs i = s.rhs i) :
    Advances touched s s' :=
  ⟨hrev.ge, by omega, fun _ => ⟨hn.ge, h⟩⟩

theorem Advances.mono {touched' : ℕ → Prop} (h : Advances touched s s')
    (hle : ∀ i, touched i → touched' i) : Advances touched' s s' :=
  ⟨h.revision, h.excess, fun heq =>
    ⟨(h.kept heq).1, fun i hi hnot => (h.kept heq).2 i hi fun ht => hnot (hle i ht)⟩⟩

/-- An edit that counts more than the rules it adds leaves nothing to be kept. -/
theorem Advances.of_more (hrev : s.rRevision ≤ s'.rRevision)
    (h : s.rRevision + s'.nRules < s'.rRevision + s.nRules) : Advances touched s s' :=
  ⟨hrev, h.le, fun heq => absurd heq h.ne⟩

theorem advances_push (w : RuleWorld) (o : RuleOptions) (s : RuleSlots) (lhs rhs : FTerm) :
    Advances (fun _ => False) s (s.atpPushRule w o lhs rhs).2 := by
  unfold RuleSlots.atpPushRule
  generalize (if o.varNorm then w.normalizeVars (lhs, rhs) else (lhs, rhs)) = p
  obtain ⟨l, r⟩ := p
  dsimp only
  split
  · exact .of_same rfl rfl fun _ _ _ => ⟨rfl, rfl⟩
  · obtain ⟨hn, -⟩ := RuleSlots.ensure_same s (s.nRules + 1)
    obtain ⟨hl, hr, hrev⟩ := ensure_sides s (s.nRules + 1)
    generalize s.atpEnsureRuleCap (s.nRules + 1) = t at hn hl hr hrev
    have hwritten : (t.writeRule w o l r).nRules = s.nRules + 1 ∧
        (t.writeRule w o l r).rRevision = s.rRevision + 1 := by
      rw [← hn, ← hrev]
      exact ⟨rfl, rfl⟩
    have hsides : ∀ i < s.nRules, (t.writeRule w o l r).lhs i = s.lhs i ∧
        (t.writeRule w o l r).rhs i = s.rhs i := fun i hi => by
      have hne : i ≠ t.nRules := by omega
      exact ⟨(Function.update_of_ne hne _ _).trans (congrFun hl i),
        (Function.update_of_ne hne _ _).trans (congrFun hr i)⟩
    have hfades : Fades (t.writeRule w o l r) (if o.useBwdSubsume then
        (List.range s.nRules).foldl (fun s i => s.bwdSubsume (l, r) i) (t.writeRule w o l r)
        else t.writeRule w o l r) := by
      split
      · exact fades_foldl_bwdSubsume _ _
      · exact .refl
    generalize (if o.useBwdSubsume then
      (List.range s.nRules).foldl (fun s i => s.bwdSubsume (l, r) i) (t.writeRule w o l r)
      else t.writeRule w o l r) = s' at hfades ⊢
    have hn' := hfades.nRules
    have hrev' := hfades.revision
    change Advances _ s s'
    refine ⟨by omega, by omega, fun heq => ⟨by omega, fun i hi _ => ?_⟩⟩
    obtain ⟨hl', hr'⟩ := hfades.kept (by omega)
    rw [hl', hr']
    exact hsides i hi

end

namespace RuleSlots

theorem advances_edit (w : RuleWorld) (o : RuleOptions) (s : RuleSlots) (e : RuleEdit)
    (h : s.EditAllowed e) : Advances (· ∈ e.composes) s (s.edit w o e) := by
  cases e with
  | push lhs rhs =>
    exact (advances_push w o s lhs rhs).mono fun _ => False.elim
  | softDelete i => exact .of_more (Nat.le_succ _) (by simp [edit, softDelete])
  | compact firstPass i =>
    refine .of_more (Nat.le_succ _) ?_
    simp only [edit, dropSlot]
    omega
  | compose i rhs =>
    refine .of_same rfl rfl fun j _ hne => ⟨rfl, Function.update_of_ne ?_ _ _⟩
    exact fun hj => hne (hj ▸ List.mem_singleton_self j)
  | orient i => exact .of_more (Nat.le_succ _) (by simp [edit])
  | touch rules =>
    obtain ⟨hl, hr, -, hn, hrev⟩ := h
    exact .of_same hn hrev fun i _ _ => ⟨congrFun hl i, congrFun hr i⟩

end RuleSlots

end Thvm.Atp
