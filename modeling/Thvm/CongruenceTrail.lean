import Thvm.CongruenceClosure

/-!
# The trail undoes what it records

Every record is the inverse of the change it was written for. The signature table comes
back as a finite map only: its capacity and the places of its entries may differ.
-/

namespace Thvm.CongruenceClosure
open LinearProbing RankedForests

structure SigOk (t : CcSig) : Prop where
  wf : WellFormed ccHash t
  cap : 4 ≤ t.cap
  load : t.count * 4 < t.cap * 3

/-- The same state, with the signature table as a finite map. The queue of pending merges is
empty between the operations and the trail is handled apart. -/
structure Same (t s : CcState) : Prop where
  nodes : t.nodes = s.nodes
  parent : t.parent = s.parent
  rank : t.rank = s.rank
  useHead : t.useHead = s.useHead
  uses : t.uses = s.uses
  ne : t.ne = s.ne
  sigOk : SigOk t.sig
  sig : ∀ key node, t.sig.Has key node ↔ s.sig.Has key node

def undoAll : List CcTrail → CcState → Option CcState
  | [], s => some s
  | e :: es, s => ccUndo s e >>= undoAll es

/-- The records between two states lead back from the second to the first. -/
def Undoes (s s' : CcState) : Prop :=
  ∃ es, s'.trail = es ++ s.trail ∧
    ∀ t, Same t s' → ∃ t', undoAll es t = some t' ∧ Same t' s

variable {s s' s₁ t : CcState} {e : CcTrail} {es es' base : List CcTrail} {key : List ℕ}
  {node slot r app ra rb : ℕ}

theorem undoAll_append : undoAll (es ++ es') s = undoAll es s >>= undoAll es' := by
  induction es generalizing s with
  | nil => rfl
  | cons e es ih =>
    rw [List.cons_append, undoAll, undoAll]
    cases ccUndo s e with
    | none => rfl
    | some s' => exact ih

theorem Undoes.refl (s : CcState) : Undoes s s := ⟨[], rfl, fun t ht => ⟨t, rfl, ht⟩⟩

theorem Undoes.trans (h : Undoes s s₁) (h' : Undoes s₁ s') : Undoes s s' := by
  obtain ⟨es, htrail, hundo⟩ := h
  obtain ⟨es', htrail', hundo'⟩ := h'
  refine ⟨es' ++ es, by rw [htrail', htrail, List.append_assoc], fun t ht => ?_⟩
  obtain ⟨t₁, hrun₁, ht₁⟩ := hundo' t ht
  obtain ⟨t', hrun, ht'⟩ := hundo t₁ ht₁
  refine ⟨t', ?_, ht'⟩
  rw [undoAll_append, hrun₁]
  exact hrun

/-- One record that leads back. -/
theorem Undoes.single (htrail : s'.trail = e :: s.trail)
    (h : ∀ t, Same t s' → ∃ t', ccUndo t e = some t' ∧ Same t' s) : Undoes s s' := by
  refine ⟨[e], htrail, fun t ht => ?_⟩
  obtain ⟨t', hrun, ht'⟩ := h t ht
  refine ⟨t', ?_, ht'⟩
  simp only [undoAll, hrun, Option.bind_eq_bind, Option.bind_some]

/-- The queue of pending merges carries no trail. -/
theorem Undoes.pend (h : Undoes s s') (pend : List (ℕ × ℕ)) : Undoes s { s' with pend := pend } := by
  obtain ⟨es, htrail, hundo⟩ := h
  refine ⟨es, htrail, fun t ht => hundo t ?_⟩
  exact ⟨ht.nodes, ht.parent, ht.rank, ht.useHead, ht.uses, ht.ne, ht.sigOk, ht.sig⟩

theorem undoes_useAdd (s : CcState) (r app : ℕ) : Undoes s (ccUseAdd s r app) := by
  apply Undoes.single (e := .use app r (s.useHead r)) rfl
  intro t ht
  refine ⟨_, rfl, ht.nodes, ht.parent, ht.rank, ?_, ?_, ht.ne, ht.sigOk, ht.sig⟩
  · show Function.update t.useHead r (s.useHead r) = s.useHead
    rw [ht.useHead, ccUseAdd, Function.update_idem, Function.update_eq_self]
  · show t.uses.dropLast = s.uses
    rw [ht.uses, ccUseAdd, List.dropLast_concat]

theorem undoes_newNode (hparent : s.parent s.nodes.length = s.nodes.length)
    (hrank : s.rank s.nodes.length = 0) (hhead : s.useHead s.nodes.length = none) (node : CcNode) :
    Undoes s (ccNewNode s node) := by
  apply Undoes.single (e := .node) rfl
  intro t ht
  refine ⟨_, rfl, ?_, ?_, ?_, ?_, ht.uses, ht.ne, ht.sigOk, ht.sig⟩
  · show t.nodes.dropLast = s.nodes
    rw [ht.nodes, ccNewNode, List.dropLast_concat]
  · refine ht.parent.trans (Function.update_eq_iff.mpr ⟨hparent.symm, fun _ _ => rfl⟩)
  · refine ht.rank.trans (Function.update_eq_iff.mpr ⟨hrank.symm, fun _ _ => rfl⟩)
  · refine ht.useHead.trans (Function.update_eq_iff.mpr ⟨hhead.symm, fun _ _ => rfl⟩)

theorem undoes_union (hrb : s.parent rb = rb) : Undoes s (ccUnion s ra rb) := by
  apply Undoes.single (e := .union rb ra (s.rank ra)) rfl
  intro t ht
  refine ⟨_, rfl, ht.nodes, ?_, ?_, ht.useHead, ht.uses, ht.ne, ht.sigOk, ht.sig⟩
  · show Function.update t.parent rb rb = s.parent
    rw [ht.parent, ccUnion, Function.update_idem]
    exact Function.update_eq_iff.mpr ⟨hrb.symm, fun _ _ => rfl⟩
  · show Function.update t.rank ra (s.rank ra) = s.rank
    rw [ht.rank]
    show Function.update (linkRank s.rank ra rb) ra (s.rank ra) = s.rank
    unfold linkRank
    split
    · rw [Function.update_idem, Function.update_eq_self]
    · exact Function.update_eq_self _ _

theorem undoes_ne (s : CcState) (a b : ℕ) : Undoes s (ccAssertNe s a b) := by
  apply Undoes.single (e := .ne) rfl
  intro t ht
  refine ⟨_, rfl, ht.nodes, ht.parent, ht.rank, ht.useHead, ht.uses, ?_, ht.sigOk, ht.sig⟩
  show t.ne.tail = s.ne
  rw [ht.ne]
  rfl

theorem modify_undo {l : List (ℕ × Option ℕ)} {i : ℕ} {p : ℕ × Option ℕ} (hp : l[i]? = some p)
    (hnone : p.2 = none) (q : Option ℕ) :
    (l.modify i fun cell => (cell.1, q)).modify i (fun cell => (cell.1, none)) = l := by
  apply List.ext_getElem?
  intro j
  rw [List.getElem?_modify, List.getElem?_modify]
  by_cases hij : i = j
  · subst hij
    obtain ⟨x, y⟩ := p
    simp only [hp, if_true]
    rw [← hnone]
    rfl
  · simp [hij]

theorem ccUseTail_end {uses : List (ℕ × Option ℕ)} {n c tail : ℕ} (h : ccUseTail uses n c = some tail) :
    ∃ p, uses[tail]? = some p ∧ p.2 = none := by
  induction n generalizing c with
  | zero => cases h
  | succ n ih =>
    obtain ⟨p, hp, h⟩ := Option.bind_eq_some_iff.mp h
    cases hnext : p.2 with
    | none =>
      simp only [hnext] at h
      obtain rfl := Option.some.inj h
      exact ⟨p, hp, hnext⟩
    | some c' =>
      simp only [hnext] at h
      exact ih h

theorem undoes_useSplice (hne : ra ≠ rb) (h : ccUseSplice s ra rb = some s') : Undoes s s' := by
  unfold ccUseSplice at h
  cases hhead : s.useHead rb with
  | none =>
    simp only [hhead] at h
    obtain rfl := Option.some.inj h
    exact .refl s
  | some rbHead =>
    simp only [hhead] at h
    obtain ⟨tail, htail, h⟩ := Option.bind_eq_some_iff.mp h
    obtain rfl := Option.some.inj h
    obtain ⟨p, hp, hnone⟩ := ccUseTail_end htail
    apply Undoes.single (e := .useSplice rb ra rbHead tail (s.useHead ra)) rfl
    intro t ht
    refine ⟨_, rfl, ht.nodes, ht.parent, ht.rank, ?_, ?_, ht.ne, ht.sigOk, ht.sig⟩
    · show Function.update (Function.update t.useHead ra (s.useHead ra)) rb (some rbHead) = s.useHead
      rw [ht.useHead]
      funext r
      by_cases hrb : r = rb
      · simp [hrb, hhead]
      · by_cases hra : r = ra
        · subst hra
          simp [hrb]
        · simp [hrb, hra]
    · show t.uses.modify tail (fun cell => (cell.1, none)) = s.uses
      rw [ht.uses]
      exact modify_undo hp hnone _

theorem ccSigPutRaw_spec {t : CcSig} (h : SigOk t) (hfound : Found ccHash t key slot none) (node : ℕ) :
    ∃ t', ccSigPutRaw t slot key node = some t' ∧ SigOk t' ∧
      ∀ key' node', t'.Has key' node' ↔ (key = key' ∧ node = node') ∨ t.Has key' node' := by
  have hload := h.load
  have hcap := h.cap
  obtain ⟨hplaced, hhas⟩ := place_spec h.wf hfound (by omega) node
  unfold ccSigPutRaw
  by_cases hgrow : t.cap * 3 ≤ (t.count + 1) * 4
  · obtain ⟨t', hrun, hwf, hcap', hcount', hhas'⟩ := rehash_spec hplaced
    refine ⟨t', (if_pos hgrow).trans hrun, ⟨hwf, ?_, ?_⟩, fun key' node' => ?_⟩
    · rw [hcap']
      exact hcap.trans (Nat.le_mul_of_pos_right _ (by omega))
    · have : t'.cap = t.cap * 2 := hcap'
      have : t'.count ≤ t.cap := hcount'
      omega
    · rw [hhas', hhas]
  · exact ⟨t.place slot key node, if_neg hgrow, ⟨hplaced, hcap, Nat.lt_of_not_le hgrow⟩, hhas⟩

theorem undoes_sigPut {t' : CcSig} (hno : ∀ node, ¬s.sig.Has key node)
    (hhas : ∀ key' node', t'.Has key' node' ↔ (key = key' ∧ node = node') ∨ s.sig.Has key' node') :
    Undoes s { s with sig := t', trail := .sigPut key :: s.trail } := by
  apply Undoes.single (e := .sigPut key) rfl
  intro t ht
  obtain ⟨t'', hrun, hwf, hcap, hcount, hhas'⟩ := erase_spec ht.sigOk.wf key
  have hload := ht.sigOk.load
  have hcap' := ht.sigOk.cap
  refine ⟨{ t with sig := t'' }, ?_, ht.nodes, ht.parent, ht.rank, ht.useHead, ht.uses, ht.ne,
    ⟨hwf, ?_, ?_⟩, fun key' node' => ?_⟩
  · simp only [ccUndo, hrun, Option.bind_eq_bind, Option.bind_some]
  · rw [hcap]
    exact hcap'
  · show t''.count * 4 < t''.cap * 3
    omega
  · have hsame : t.sig.Has key' node' ↔ t'.Has key' node' := ht.sig key' node'
    rw [hhas', hsame, hhas]
    constructor
    · rintro ⟨hne, ⟨rfl, -⟩ | hold⟩
      · exact absurd rfl hne
      · exact hold
    · intro hold
      refine ⟨?_, .inr hold⟩
      rintro rfl
      exact hno node' hold

theorem ccSigPut_spec (h : SigOk s.sig) (hfound : Found ccHash s.sig key slot none) (node : ℕ) :
    ∃ t', ccSigPut s slot key node = some { s with sig := t', trail := .sigPut key :: s.trail } ∧
      SigOk t' ∧
      (∀ key' node', t'.Has key' node' ↔ (key = key' ∧ node = node') ∨ s.sig.Has key' node') ∧
      Undoes s { s with sig := t', trail := .sigPut key :: s.trail } := by
  obtain ⟨t', hrun, hok, hhas⟩ := ccSigPutRaw_spec h hfound node
  refine ⟨t', ?_, hok, hhas, undoes_sigPut ?_ hhas⟩
  · simp only [ccSigPut, hrun, Option.bind_eq_bind, Option.bind_some]
    rfl
  · cases hfound with
    | miss _ _ hno _ => exact hno

theorem ccUndo_trail (s : CcState) (e : CcTrail) (es : List CcTrail) :
    ccUndo { s with trail := es } e = (ccUndo s e).map fun s => { s with trail := es } := by
  cases e with
  | sigPut key =>
    simp only [ccUndo]
    cases erase ccHash s.sig key <;> rfl
  | sigDel key a =>
    simp only [ccUndo, ccSigLookup]
    cases lookup ccHash s.sig key with
    | none => rfl
    | some p =>
      simp only [Option.bind_eq_bind, Option.bind_some]
      cases ccSigPutRaw s.sig p.1 key a <;> rfl
  | _ => rfl

theorem undoAll_trail (s : CcState) (es es' : List CcTrail) :
    undoAll es { s with trail := es' } = (undoAll es s).map fun s => { s with trail := es' } := by
  induction es generalizing s with
  | nil => rfl
  | cons e es ih =>
    rw [undoAll, undoAll, ccUndo_trail]
    cases ccUndo s e with
    | none => rfl
    | some s' => exact ih s'

/-- The loop of `cc_pop` takes the records above the mark. -/
theorem ccPopTrail_eq (h : s.trail = es ++ base) :
    ccPopTrail base.length (es ++ base) s =
      (undoAll es s).map fun s => { s with trail := base } := by
  induction es generalizing s with
  | nil =>
    have hself : { s with trail := base } = s := by rw [← List.nil_append base, ← h]
    rw [List.nil_append, undoAll, Option.map_some, hself]
    cases base with
    | nil => rfl
    | cons e base => exact if_neg (Nat.lt_irrefl _)
  | cons e es ih =>
    have hrest : ((ccUndo s e).map fun s => { s with trail := es ++ base }) >>=
        ccPopTrail base.length (es ++ base) =
        (ccUndo s e >>= undoAll es).map fun s => { s with trail := base } := by
      cases ccUndo s e with
      | none => rfl
      | some s' =>
        show ccPopTrail base.length (es ++ base) { s' with trail := es ++ base } = _
        rw [ih rfl, undoAll_trail, Option.map_map]
        rfl
    rw [List.cons_append, ccPopTrail, if_pos, ccUndo_trail, undoAll]
    · exact hrest
    · simp only [List.length_cons, List.length_append]
      omega

theorem ccUndo_pend (h : ccUndo s e = some t) : t.pend = s.pend := by
  cases e with
  | sigPut key =>
    obtain ⟨sig, -, ht⟩ := Option.bind_eq_some_iff.mp h
    cases ht
    rfl
  | sigDel key a =>
    obtain ⟨p, -, h⟩ := Option.bind_eq_some_iff.mp h
    obtain ⟨sig, -, ht⟩ := Option.bind_eq_some_iff.mp h
    cases ht
    rfl
  | _ =>
    cases h
    rfl

theorem undoAll_pend (h : undoAll es s = some t) : t.pend = s.pend := by
  induction es generalizing s with
  | nil =>
    cases h
    rfl
  | cons e es ih =>
    obtain ⟨s', hs', h⟩ := Option.bind_eq_some_iff.mp h
    exact (ih h).trans (ccUndo_pend hs')

/-- Popping to the mark of a state gives it back. -/
theorem ccPop_spec (h : Undoes s s') (hsig : SigOk s'.sig) :
    ∃ t, ccPop s' (ccPush s) = some t ∧ Same t s ∧ t.trail = s.trail ∧ t.pend = s'.pend := by
  obtain ⟨es, htrail, hundo⟩ := h
  obtain ⟨t, hrun, ht⟩ := hundo s' ⟨rfl, rfl, rfl, rfl, rfl, rfl, hsig, fun _ _ => Iff.rfl⟩
  refine ⟨{ t with trail := s.trail }, ?_, ?_, rfl, (undoAll_pend hrun : t.pend = s'.pend)⟩
  · rw [ccPop, ccPush, htrail, ccPopTrail_eq htrail, hrun]
    rfl
  · exact ⟨ht.nodes, ht.parent, ht.rank, ht.useHead, ht.uses, ht.ne, ht.sigOk, ht.sig⟩

end Thvm.CongruenceClosure
