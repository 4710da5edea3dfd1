import Thvm.CongruenceInvariant
import Thvm.BoundedLoops

/-!
# The operations of the congruence closure

Propagation ends with no merges pending, and then the classes are exactly the classes of the
asserted equations. Every operation keeps the invariant and leaves a trail back.
-/

namespace Thvm.CongruenceClosure
open LinearProbing RankedForests LinkedLists BoundedLoops

variable {s s' : CcState} {eqs : List (ℕ × ℕ)} {lists : ℕ → List ℕ} {a b m n f ra rb : ℕ}
  {as bs : List ℕ}

/-- The invariant between two operations. -/
structure Settled (s : CcState) (eqs : List (ℕ × ℕ)) : Prop where
  inv : ∃ lists, CcInv s eqs lists (fun _ => False) fun _ _ => False
  pend : s.pend = []

/-- The number of classes. -/
def roots (s : CcState) : ℕ := ((Finset.range s.nodes.length).filter fun n => s.parent n = n).card

theorem roots_lt (hnodes : s'.nodes = s.nodes) (hparent : s'.parent = Function.update s.parent rb ra)
    (hlt : rb < s.nodes.length) (hroot : s.parent rb = rb) (hne : ra ≠ rb) : roots s' < roots s := by
  unfold roots
  rw [hnodes, hparent]
  apply Finset.card_lt_card
  rw [Finset.ssubset_iff_of_subset]
  · refine ⟨rb, ?_, ?_⟩
    · simp [hlt, hroot]
    · simp [hne]
  · intro n hn
    rw [Finset.mem_filter] at hn ⊢
    refine ⟨hn.1, ?_⟩
    by_cases hnb : n = rb
    · rw [hnb, hroot]
    · rw [Function.update_of_ne hnb] at hn
      exact hn.2

/-- A pending pair that is in one class already. -/
theorem CcInv.dropPend {pend : List (ℕ × ℕ)} (h : CcInv s eqs lists (fun _ => False) fun _ _ => False)
    (hpend : s.pend = (a, b) :: pend) (heq : ccFind s a = ccFind s b) :
    CcInv { s with pend := pend } eqs lists (fun _ => False) fun _ _ => False := by
  have hjoin : ∀ m n, Joined s m n → Joined { s with pend := pend } m n := by
    intro m n hj
    apply hj.mono
    · exact fun m n hf => .rel _ _ (.inl hf)
    · intro m n hp
      rw [hpend] at hp
      rcases List.mem_cons.mp hp with hp | hp
      · obtain ⟨rfl, rfl⟩ := Prod.mk.inj hp
        exact .rel _ _ (.inl heq)
      · exact .of_pend hp
  refine ⟨h.forest, h.fresh, h.args, h.linked, h.apps, h.sigOk, h.keys, h.used, h.sound, ?_, ?_, ?_⟩
  · intro p hp
    exact h.pendSound p (hpend ▸ List.mem_cons_of_mem _ hp)
  · intro p hp
    obtain ⟨h₁, h₂, hj⟩ := h.eqs p hp
    exact ⟨h₁, h₂, hjoin _ _ hj⟩
  · intro n f as hn hopen
    obtain ⟨m, hm, hj⟩ := h.closed n f as hn hopen
    exact ⟨m, hm, hjoin _ _ hj⟩

/-- The merge that a pending pair asks for. -/
theorem CcInv.mergePair {pend : List (ℕ × ℕ)} (h : CcInv s eqs lists (fun _ => False) fun _ _ => False)
    (hpend : s.pend = (a, b) :: pend)
    (hab : (ccFind s a = ra ∧ ccFind s b = rb) ∨ (ccFind s a = rb ∧ ccFind s b = ra))
    (hrank : s.rank rb ≤ s.rank ra) (hne : ra ≠ rb) :
    ∃ s' lists', ccMerge { s with pend := pend } ra rb = some s' ∧
      CcInv s' eqs lists' (fun _ => False) (fun _ _ => False) ∧ s'.nodes = s.nodes ∧
      s'.ne = s.ne ∧ roots s' < roots s ∧ Undoes s s' := by
  obtain ⟨ha, hb, hcongr⟩ := h.pendSound (a, b) (hpend ▸ List.mem_cons_self)
  have hab' : Congruent s.nodes eqs (ccFind s a) (ccFind s b) :=
    ((h.congruent_find ha).symm.trans hcongr).trans (h.congruent_find hb)
  have hm : Mergeable s eqs ra rb := by
    rcases hab with ⟨rfl, rfl⟩ | ⟨rfl, rfl⟩
    · exact ⟨⟨h.find_lt ha, h.find_lt hb⟩, ⟨h.find_root ha, h.find_root hb⟩, hab', hrank, hne⟩
    · exact ⟨⟨h.find_lt hb, h.find_lt ha⟩, ⟨h.find_root hb, h.find_root ha⟩, hab'.symm, hrank, hne⟩
  have hsplit : ∀ m n, (m, n) ∈ s.pend → (m, n) ∈ pend ∨
      ccFind (ccUnion s ra rb) m = ccFind (ccUnion s ra rb) n := by
    intro m n hp
    rw [hpend] at hp
    rcases List.mem_cons.mp hp with hp | hp
    · right
      obtain ⟨rfl, rfl⟩ := Prod.mk.inj hp
      rw [h.find_union hm, h.find_union hm]
      rcases hab with ⟨hm', hn'⟩ | ⟨hm', hn'⟩
      · rw [hm', hn', if_neg hne, if_pos rfl]
      · rw [hm', hn', if_neg hne, if_pos rfl]
    · exact .inl hp
  obtain ⟨s', lists', hrun, hinv, hnodes, hparent, hne', hundo⟩ := h.merge hm hsplit
    fun p hp => hpend ▸ List.mem_cons_of_mem _ hp
  exact ⟨s', lists', hrun, hinv, hnodes, hne', roots_lt hnodes hparent hm.lt.2 hm.root.2 hne, hundo⟩

/-- The queue runs empty: every round drops a pending pair or merges two classes. -/
theorem CcInv.propagate (h : CcInv s eqs lists (fun _ => False) fun _ _ => False) :
    ∃ s', Settles (fun rounds => ccPropagate rounds s) s' ∧ Settled s' eqs ∧ s'.nodes = s.nodes ∧
      s'.ne = s.ne ∧ Undoes s s' := by
  induction hk : roots s using Nat.strong_induction_on generalizing s lists with
  | _ k ih =>
    induction hp : s.pend generalizing s lists with
    | nil =>
      refine ⟨s, (Settles.const s).succ fun n => ?_, ⟨⟨lists, h⟩, hp⟩, rfl, rfl, .refl s⟩
      rw [ccPropagate, hp]
    | cons p pend ihp =>
      obtain ⟨a, b⟩ := p
      by_cases heq : ccFind s a = ccFind s b
      · obtain ⟨s', hset, hsettled, hnodes, hne, hundo⟩ := ihp (h.dropPend hp heq) hk rfl
        refine ⟨s', hset.succ fun n => ?_, hsettled, hnodes, hne, ?_⟩
        · rw [ccPropagate, hp]
          exact if_pos heq
        · exact ((Undoes.refl s).pend pend).trans hundo
      · have hstep : ∃ s₁ lists₁, (∀ n, ccPropagate (n + 1) s = ccPropagate n s₁) ∧
            CcInv s₁ eqs lists₁ (fun _ => False) (fun _ _ => False) ∧ s₁.nodes = s.nodes ∧
            s₁.ne = s.ne ∧ roots s₁ < roots s ∧ Undoes s s₁ := by
          by_cases hrank : s.rank (ccFind s a) < s.rank (ccFind s b)
          · obtain ⟨s₁, lists₁, hrun, hrest⟩ := h.mergePair hp (.inr ⟨rfl, rfl⟩) hrank.le (Ne.symm heq)
            refine ⟨s₁, lists₁, fun n => ?_, hrest⟩
            rw [ccPropagate, hp]
            refine (if_neg heq).trans ((if_pos hrank).trans ?_)
            show ccMerge { s with pend := pend } (ccFind s b) (ccFind s a) >>= ccPropagate n = _
            rw [hrun]
            rfl
          · obtain ⟨s₁, lists₁, hrun, hrest⟩ := h.mergePair hp (.inl ⟨rfl, rfl⟩)
              (Nat.le_of_not_lt hrank) heq
            refine ⟨s₁, lists₁, fun n => ?_, hrest⟩
            rw [ccPropagate, hp]
            refine (if_neg heq).trans ((if_neg hrank).trans ?_)
            show ccMerge { s with pend := pend } (ccFind s a) (ccFind s b) >>= ccPropagate n = _
            rw [hrun]
            rfl
        obtain ⟨s₁, lists₁, hrun, hinv₁, hnodes₁, hne₁, hlt, hundo₁⟩ := hstep
        obtain ⟨s', hset, hsettled, hnodes, hne, hundo⟩ := ih _ (hk ▸ hlt) hinv₁ rfl
        exact ⟨s', hset.succ hrun, hsettled, hnodes.trans hnodes₁, hne.trans hne₁, hundo₁.trans hundo⟩

/-- What follows from the equations is in one class, by induction on how it follows. -/
theorem CcInv.find_of_congruent (h : CcInv s eqs lists (fun _ => False) fun _ _ => False)
    (hpend : s.pend = []) (hmn : Congruent s.nodes eqs m n) : ccFind s m = ccFind s n := by
  induction hmn with
  | refl n => rfl
  | symm _ ih => exact ih.symm
  | trans _ _ ih ih' => exact ih.trans ih'
  | eqn hp => exact (h.eqs _ hp).2.2.find_eq hpend
  | @congr m n f as bs hm hn hlen _ ih =>
    obtain ⟨m', hm', hjm⟩ := h.closed m f as hm fun ho => ho
    obtain ⟨n', hn', hjn⟩ := h.closed n f bs hn fun ho => ho
    have hkey : ccKey s f as = ccKey s f bs := by
      unfold ccKey
      congr 1
      apply List.ext_getElem (by simpa using hlen)
      intro i hi hi'
      rw [List.length_map] at hi hi'
      have hmem := List.getElem_mem (l := as.zip bs) (n := i) (by simp [hi, hi'])
      rw [List.getElem_zip] at hmem
      rw [List.getElem_map, List.getElem_map]
      exact ih _ hmem
    rw [hkey] at hm'
    obtain rfl := h.sigOk.wf.has_inj hm' hn'
    exact (hjm.find_eq hpend).symm.trans (hjn.find_eq hpend)

/-- The classes are those of the asserted equations. -/
theorem Settled.exact (h : Settled s eqs) (hm : m < s.nodes.length) (hn : n < s.nodes.length) :
    ccFind s m = ccFind s n ↔ Congruent s.nodes eqs m n := by
  obtain ⟨⟨lists, hinv⟩, hpend⟩ := h
  constructor
  · exact hinv.sound m hm n hn
  · exact hinv.find_of_congruent hpend

/-- `cc_assert_eq`. -/
theorem Settled.assertEq (h : Settled s eqs) (ha : a < s.nodes.length) (hb : b < s.nodes.length) :
    ∃ s', Settles (fun rounds => ccAssertEq rounds s a b) s' ∧ Settled s' ((a, b) :: eqs) ∧
      s'.nodes = s.nodes ∧ s'.ne = s.ne ∧ Undoes s s' := by
  obtain ⟨⟨lists, hinv⟩, hpend⟩ := h
  have hmono : ∀ m n, Congruent s.nodes eqs m n → Congruent s.nodes ((a, b) :: eqs) m n :=
    fun m n hc => hc.mono (fun _ _ hn => hn) fun p hp => List.mem_cons_of_mem _ hp
  have hjoin : ∀ m n, Joined s m n → Joined (s.pendPush a b) m n := fun m n hj =>
    hj.mono (fun _ _ hf => .rel _ _ (.inl hf)) fun _ _ hp => .of_pend (List.mem_cons_of_mem _ hp)
  have hpushed : CcInv (s.pendPush a b) ((a, b) :: eqs) lists (fun _ => False) fun _ _ => False := by
    refine ⟨hinv.forest, hinv.fresh, hinv.args, hinv.linked, hinv.apps, hinv.sigOk, hinv.keys,
      hinv.used, fun m hm n hn hf => hmono m n (hinv.sound m hm n hn hf), ?_, ?_, ?_⟩
    · intro p hp
      have hp : p ∈ (a, b) :: s.pend := hp
      rw [hpend] at hp
      obtain rfl := List.mem_singleton.mp hp
      exact ⟨ha, hb, .eqn List.mem_cons_self⟩
    · intro p hp
      rcases List.mem_cons.mp hp with rfl | hp
      · exact ⟨ha, hb, .of_pend List.mem_cons_self⟩
      · obtain ⟨h₁, h₂, hj⟩ := hinv.eqs p hp
        exact ⟨h₁, h₂, hjoin _ _ hj⟩
    · intro n f as hn hopen
      obtain ⟨m, hm, hj⟩ := hinv.closed n f as hn hopen
      exact ⟨m, hm, hjoin _ _ hj⟩
  obtain ⟨s', hset, hsettled, hnodes, hne, hundo⟩ := hpushed.propagate
  exact ⟨s', hset, hsettled, hnodes, hne, ((Undoes.refl s).pend _).trans hundo⟩

/-- `cc_assert_ne`. -/
theorem Settled.assertNe (h : Settled s eqs) (a b : ℕ) : Settled (ccAssertNe s a b) eqs := by
  obtain ⟨⟨lists, hinv⟩, hpend⟩ := h
  exact ⟨⟨lists, hinv.forest, hinv.fresh, hinv.args, hinv.linked, hinv.apps, hinv.sigOk, hinv.keys,
    hinv.used, hinv.sound, hinv.pendSound, hinv.eqs, hinv.closed⟩, hpend⟩

variable {open' : ℕ → Prop} {unlisted : ℕ → ℕ → Prop}

theorem CcInv.newNode_eq (h : CcInv s eqs lists open' unlisted) (node : CcNode) :
    ccNewNode s node = { s with nodes := s.nodes ++ [node], trail := .node :: s.trail } := by
  obtain ⟨hparent, hrank, hhead⟩ := h.fresh s.nodes.length (Nat.le_refl _)
  unfold ccNewNode CcState.trailPush
  rw [Function.update_eq_iff.mpr ⟨hparent.symm, fun _ _ => rfl⟩,
    Function.update_eq_iff.mpr ⟨hrank.symm, fun _ _ => rfl⟩,
    Function.update_eq_iff.mpr ⟨hhead.symm, fun _ _ => rfl⟩]

theorem CcInv.undoes_newNode (h : CcInv s eqs lists open' unlisted) (node : CcNode) :
    Undoes s (ccNewNode s node) := by
  obtain ⟨hparent, hrank, hhead⟩ := h.fresh s.nodes.length (Nat.le_refl _)
  exact CongruenceClosure.undoes_newNode hparent hrank hhead node

theorem CcInv.find_newNode (h : CcInv s eqs lists open' unlisted) (node : CcNode) (n : ℕ) :
    ccFind (ccNewNode s node) n = ccFind s n := by
  rw [h.newNode_eq]
  show findRoot s.parent (s.nodes ++ [node]).length n = findRoot s.parent s.nodes.length n
  rw [List.length_append, List.length_singleton]
  rcases Nat.lt_or_ge n s.nodes.length with hn | hn
  · exact h.forest.findRoot_succ hn (above_lt_size hn).le
  · obtain ⟨hparent, -⟩ := h.fresh n hn
    rw [root_of_isRoot hparent, root_of_isRoot hparent]

theorem getElem?_concat {node x : CcNode} {nodes : List CcNode} (h : (nodes ++ [node])[n]? = some x) :
    nodes[n]? = some x ∨ (n = nodes.length ∧ x = node) := by
  rcases Nat.lt_or_ge n nodes.length with hn | hn
  · left
    rwa [List.getElem?_append_left hn] at h
  · right
    rw [List.getElem?_append_right hn] at h
    obtain ⟨hlt, hx⟩ := List.getElem?_eq_some_iff.mp h
    rw [List.length_singleton] at hlt
    exact ⟨by omega, by simpa using hx.symm⟩

theorem getElem?_old {node x : CcNode} {nodes : List CcNode} (h : nodes[n]? = some x) :
    (nodes ++ [node])[n]? = some x := by
  rw [List.getElem?_append_left (List.getElem?_eq_some_iff.mp h).1, h]

/-- A new node is a class of its own; when it is an application it has yet to be put into the
table and the use lists. -/
theorem CcInv.newNode (h : CcInv s eqs lists (fun _ => False) fun _ _ => False) (node : CcNode)
    (hargs : ∀ f as, node = .app f as → ∀ a ∈ as, a < s.nodes.length) :
    CcInv (ccNewNode s node) eqs lists (fun n => n = s.nodes.length)
      (fun n a => n = s.nodes.length ∧ ∃ f as, node = .app f as ∧ a ∈ as) := by
  have hfind := h.find_newNode node
  have hjoin : ∀ m n, Joined s m n → Joined (ccNewNode s node) m n := fun m n hj =>
    hj.mono (fun m n hf => .of_find (by rw [hfind, hfind, hf])) fun _ _ hp => .of_pend hp
  have hcongr : ∀ m n, Congruent s.nodes eqs m n → Congruent (s.nodes ++ [node]) eqs m n :=
    fun m n hc => hc.mono (fun _ _ hn => getElem?_old hn) fun _ hp => hp
  rw [h.newNode_eq] at hfind hjoin ⊢
  have hlen : (s.nodes ++ [node]).length = s.nodes.length + 1 := by simp
  refine ⟨⟨?_, ?_⟩, ?_, ?_, h.linked, ?_, h.sigOk, ?_, ?_, ?_, ?_, ?_, ?_⟩
  · intro n hn
    show s.parent n < (s.nodes ++ [node]).length
    rw [hlen] at hn ⊢
    rcases Nat.lt_or_eq_of_le (Nat.le_of_lt_succ hn) with hn | rfl
    · exact Nat.lt_succ_of_lt (h.forest.lt n hn)
    · rw [(h.fresh _ (Nat.le_refl _)).1]
      exact Nat.lt_succ_self _
  · intro n hn hne
    rw [hlen] at hn
    rcases Nat.lt_or_eq_of_le (Nat.le_of_lt_succ hn) with hn | rfl
    · exact h.forest.rank_lt n hn hne
    · exact absurd (h.fresh _ (Nat.le_refl _)).1 hne
  · intro n hn
    rw [hlen] at hn
    exact h.fresh n (by omega)
  · intro n f as hn a ha
    show a < (s.nodes ++ [node]).length
    rw [hlen]
    rcases getElem?_concat hn with hold | ⟨-, hnode⟩
    · exact Nat.lt_succ_of_lt (h.args n f as hold a ha)
    · exact Nat.lt_succ_of_lt (hargs f as hnode.symm a ha)
  · intro c p hp
    obtain ⟨f, as, hn⟩ := h.apps c p hp
    exact ⟨f, as, getElem?_old hn⟩
  · intro key n hn
    obtain ⟨f, as, ks, hnode, hrest⟩ := h.keys key n hn
    exact ⟨f, as, ks, getElem?_old hnode, hrest⟩
  · intro n f as hn a ha
    rcases getElem?_concat hn with hold | ⟨hnew, hnode⟩
    · right
      rw [hfind]
      exact (h.used n f as hold a ha).resolve_left fun hfalse => hfalse
    · exact .inl ⟨hnew, f, as, hnode.symm, ha⟩
  · intro m hm n hn heq
    rw [hfind, hfind] at heq
    rw [hlen] at hm hn
    rcases Nat.lt_or_eq_of_le (Nat.le_of_lt_succ hm) with hm | rfl
    · rcases Nat.lt_or_eq_of_le (Nat.le_of_lt_succ hn) with hn | rfl
      · exact hcongr m n (h.sound m hm n hn heq)
      · rw [h.find_out (Nat.le_refl _)] at heq
        exact absurd (h.find_lt hm) (heq ▸ Nat.lt_irrefl _)
    · rcases Nat.lt_or_eq_of_le (Nat.le_of_lt_succ hn) with hn | rfl
      · rw [h.find_out (Nat.le_refl _)] at heq
        exact absurd (h.find_lt hn) (heq ▸ Nat.lt_irrefl _)
      · exact .refl _
  · intro p hp
    obtain ⟨h₁, h₂, hc⟩ := h.pendSound p hp
    rw [hlen]
    exact ⟨Nat.lt_succ_of_lt h₁, Nat.lt_succ_of_lt h₂, hcongr _ _ hc⟩
  · intro p hp
    obtain ⟨h₁, h₂, hj⟩ := h.eqs p hp
    rw [hlen]
    exact ⟨Nat.lt_succ_of_lt h₁, Nat.lt_succ_of_lt h₂, hjoin _ _ hj⟩
  · intro n f as hn hopen
    rcases getElem?_concat hn with hold | ⟨hnew, -⟩
    · obtain ⟨m, hm, hj⟩ := h.closed n f as hold fun ho => ho
      refine ⟨m, ?_, hjoin _ _ hj⟩
      have hkey : ∀ s', (∀ n, ccFind s' n = ccFind s n) → ccKey s' f as = ccKey s f as := by
        intro s' hs'
        unfold ccKey
        rw [List.map_congr_left fun a _ => hs' a]
      rwa [hkey _ hfind]
    · exact absurd hnew hopen

/-- `cc_atom`. -/
theorem Settled.atom (h : Settled s eqs) (atomId : ℕ) : Settled (ccAtom s atomId).2 eqs := by
  obtain ⟨⟨lists, hinv⟩, hpend⟩ := h
  have hnew := hinv.newNode (.atom atomId) fun f as hnode => nomatch hnode
  refine ⟨⟨lists, ?_⟩, hpend⟩
  refine ⟨hnew.forest, hnew.fresh, hnew.args, hnew.linked, hnew.apps, hnew.sigOk, hnew.keys,
    fun n f as hn a ha => ?_, hnew.sound, hnew.pendSound, hnew.eqs, fun n f as hn _ => ?_⟩
  · rcases hnew.used n f as hn a ha with ⟨-, f', as', hnode, -⟩ | hlisted
    · cases hnode
    · exact .inr hlisted
  · rcases getElem?_concat hn with hold | ⟨-, hnode⟩
    · apply hnew.closed n f as hn
      have := node_lt hold
      omega
    · cases hnode

theorem holds_concat {uses : List (ℕ × Option ℕ)} {cs : List ℕ} {p : ℕ × Option ℕ}
    (h : Holds uses cs n) : Holds (uses ++ [p]) cs n := by
  obtain ⟨c, hc, next, hcell⟩ := h
  refine ⟨c, hc, next, ?_⟩
  rw [List.getElem?_append_left (List.getElem?_eq_some_iff.mp hcell).1, hcell]

theorem useNext_concat {uses : List (ℕ × Option ℕ)} {p : ℕ × Option ℕ} {c : ℕ}
    (hc : c < uses.length) : useNext (uses ++ [p]) c = useNext uses c := by
  unfold useNext
  rw [List.getElem?_append_left hc]

/-- A new cell at the head of one list. -/
theorem Linked.cons {uses : List (ℕ × Option ℕ)} {useHead : ℕ → Option ℕ}
    (h : Linked uses useHead lists) (r app : ℕ) :
    Linked (uses ++ [(app, useHead r)]) (Function.update useHead r (some uses.length))
      (Function.update lists r (uses.length :: lists r)) := by
  have hpath : ∀ r', Path (useNext (uses ++ [(app, useHead r)])) (useHead r') (lists r') := fun r' =>
    (h.path r').congr fun c hc => useNext_concat (h.lt r' c hc)
  have hfresh : ∀ r', uses.length ∉ lists r' := fun r' hc => Nat.lt_irrefl _ (h.lt r' _ hc)
  have hmem : ∀ r' c, c ∈ Function.update lists r (uses.length :: lists r) r' →
      (r' = r ∧ c = uses.length) ∨ c ∈ lists r' := by
    intro r' c hc
    by_cases hr : r' = r
    · subst hr
      rw [Function.update_self] at hc
      exact (List.mem_cons.mp hc).imp_left fun heq => ⟨rfl, heq⟩
    · rw [Function.update_of_ne hr] at hc
      exact .inr hc
  refine ⟨fun r' => ?_, fun r' c hc => ?_, fun r' => ?_, fun r' r'' c hc hc' => ?_⟩
  · by_cases hr : r' = r
    · subst hr
      rw [Function.update_self, Function.update_self]
      refine ⟨rfl, ?_⟩
      have hhead : useNext (uses ++ [(app, useHead r')]) uses.length = useHead r' := by
        simp [useNext]
      rw [hhead]
      exact hpath r'
    · rw [Function.update_of_ne hr, Function.update_of_ne hr]
      exact hpath r'
  · rw [List.length_append, List.length_singleton]
    rcases hmem r' c hc with ⟨-, rfl⟩ | hold
    · exact Nat.lt_succ_self _
    · exact Nat.lt_succ_of_lt (h.lt r' c hold)
  · by_cases hr : r' = r
    · subst hr
      rw [Function.update_self, List.nodup_cons]
      exact ⟨hfresh r', h.nodup r'⟩
    · rw [Function.update_of_ne hr]
      exact h.nodup r'
  · rcases hmem r' c hc with ⟨rfl, rfl⟩ | hold
    · rcases hmem r'' _ hc' with ⟨rfl, -⟩ | hold'
      · rfl
      · exact absurd hold' (hfresh r'')
    · rcases hmem r'' c hc' with ⟨rfl, rfl⟩ | hold'
      · exact absurd hold (hfresh r')
      · exact h.disjoint r' r'' c hold hold'

/-- One argument of a new application is put on record. -/
theorem CcInv.useAdd {rest : List ℕ}
    (h : CcInv s eqs lists open' fun m x => m = n ∧ x ∈ a :: rest)
    (hn : s.nodes[n]? = some (.app f as)) (ha : a < s.nodes.length) :
    ∃ lists', CcInv (ccUseAdd s (ccFind s a) n) eqs lists' open' fun m x => m = n ∧ x ∈ rest := by
  refine ⟨Function.update lists (ccFind s a) (s.uses.length :: lists (ccFind s a)), h.forest, ?_,
    h.args, h.linked.cons _ _, ?_, h.sigOk, h.keys, ?_, h.sound, h.pendSound, h.eqs, h.closed⟩
  · intro m hm
    obtain ⟨hparent, hrank, hhead⟩ := h.fresh m hm
    have hne : m ≠ ccFind s a := fun heq => Nat.not_le.mpr (h.find_lt ha) (heq ▸ hm)
    exact ⟨hparent, hrank, (Function.update_of_ne hne _ _).trans hhead⟩
  · intro c p hp
    have hp : (s.uses ++ [(n, s.useHead (ccFind s a))])[c]? = some p := hp
    rcases Nat.lt_or_ge c s.uses.length with hc | hc
    · rw [List.getElem?_append_left hc] at hp
      exact h.apps c p hp
    · rw [List.getElem?_append_right hc] at hp
      obtain rfl := List.mem_singleton.mp (List.mem_of_getElem? hp)
      exact ⟨f, as, hn⟩
  · intro m f' bs hm x hx
    have hcell : (s.uses ++ [(n, s.useHead (ccFind s a))])[s.uses.length]? =
        some (n, s.useHead (ccFind s a)) := by simp
    have hkeep : ∀ r, Holds s.uses (lists r) m → Holds (s.uses ++ [(n, s.useHead (ccFind s a))])
        (Function.update lists (ccFind s a) (s.uses.length :: lists (ccFind s a)) r) m := by
      intro r hholds
      obtain ⟨c, hc, next, hcell⟩ := holds_concat (p := (n, s.useHead (ccFind s a))) hholds
      refine ⟨c, ?_, next, hcell⟩
      by_cases hr : r = ccFind s a
      · rw [hr, Function.update_self]
        exact List.mem_cons_of_mem _ (hr ▸ hc)
      · rwa [Function.update_of_ne hr]
    rcases h.used m f' bs hm x hx with ⟨rfl, hmem⟩ | hlisted
    · rcases List.mem_cons.mp hmem with rfl | hmem
      · right
        refine ⟨s.uses.length, ?_, _, hcell⟩
        show s.uses.length ∈ Function.update lists (ccFind s x) _ (ccFind s x)
        rw [Function.update_self]
        exact List.mem_cons_self
      · exact .inl ⟨rfl, hmem⟩
    · exact .inr (hkeep _ hlisted)

theorem CcInv.useArgs {rest : List ℕ} (h : CcInv s eqs lists open' fun m x => m = n ∧ x ∈ rest)
    (hn : s.nodes[n]? = some (.app f as)) (hrest : ∀ a ∈ rest, a < s.nodes.length) :
    ∃ lists', CcInv (ccUseArgs n rest s) eqs lists' open' (fun _ _ => False) ∧
      (ccUseArgs n rest s).nodes = s.nodes ∧ (ccUseArgs n rest s).pend = s.pend ∧
      (ccUseArgs n rest s).ne = s.ne ∧ Undoes s (ccUseArgs n rest s) := by
  induction rest generalizing s lists with
  | nil =>
    refine ⟨lists, h.weaken (fun _ ho => ho) ?_, rfl, rfl, rfl, .refl s⟩
    rintro m x ⟨-, hx⟩
    cases hx
  | cons a rest ih =>
    obtain ⟨lists₁, h₁⟩ := h.useAdd hn (hrest a List.mem_cons_self)
    obtain ⟨lists', h', hnodes, hpend, hne, hundo⟩ := ih h₁ hn fun a ha =>
      hrest a (List.mem_cons_of_mem _ ha)
    exact ⟨lists', h', hnodes, hpend, hne, (undoes_useAdd s (ccFind s a) n).trans hundo⟩

/-- `cc_app`: the node that is there, or a new one for the application. -/
theorem Settled.app (h : Settled s eqs) (f : ℕ) (hargs : ∀ a ∈ as, a < s.nodes.length) :
    ∃ n s', ccApp s f as = some (n, s') ∧ Settled s' eqs ∧ n < s'.nodes.length ∧
      (∃ nodes, s'.nodes = s.nodes ++ nodes) ∧ s'.ne = s.ne ∧ Undoes s s' := by
  obtain ⟨⟨lists, hinv⟩, hpend⟩ := h
  obtain ⟨slot, found, hrun, hfound⟩ := lookup_spec hinv.sigOk.wf (ccKey s f as)
  have hlookup : ccSigLookup s (ccKey s f as) = some (slot, found) := hrun
  cases found with
  | some m =>
    have hm : s.sig.Has (ccKey s f as) m := by
      cases hfound with
      | hit hi hs => exact ⟨slot, hi, hs⟩
    obtain ⟨f', bs, ks, hnode, -⟩ := hinv.keys _ _ hm
    refine ⟨m, s, ?_, ⟨⟨lists, hinv⟩, hpend⟩, node_lt hnode, ⟨[], (List.append_nil _).symm⟩, rfl,
      .refl s⟩
    simp only [ccApp, hlookup, Option.bind_eq_bind, Option.bind_some]
  | none =>
    have hnew := hinv.newNode (.app f as) fun f' bs hnode => by
      obtain ⟨rfl, rfl⟩ := CcNode.app.inj hnode
      exact hargs
    have hundo := hinv.undoes_newNode (.app f as)
    have hfind := hinv.find_newNode (.app f as)
    have hkey : ccKey (ccNewNode s (.app f as)) f as = ccKey s f as := by
      unfold ccKey
      rw [List.map_congr_left fun a _ => hfind a]
    have hfresh : (ccNewNode s (.app f as)).nodes[s.nodes.length]? = some (.app f as) := by
      simp [ccNewNode]
    obtain ⟨t', hput, hok, hhas, hundo₁⟩ := ccSigPut_spec (s := ccNewNode s (.app f as)) hnew.sigOk
      hfound s.nodes.length
    have hput₁ : CcInv { ccNewNode s (.app f as) with
        sig := t', trail := .sigPut (ccKey s f as) :: (ccNewNode s (.app f as)).trail } eqs lists
        (fun _ => False) fun m x => m = s.nodes.length ∧ x ∈ as := by
      refine ⟨hnew.forest, hnew.fresh, hnew.args, hnew.linked, hnew.apps, hok, ?_, ?_, hnew.sound,
        hnew.pendSound, hnew.eqs, ?_⟩
      · intro key m hm
        rcases (hhas key m).mp hm with ⟨rfl, rfl⟩ | hold
        · refine ⟨f, as, as.map (ccFind (ccNewNode s (.app f as))), hfresh, hkey.symm, ?_⟩
          exact hnew.key_below (hnew.args _ _ _ hfresh)
        · exact hnew.keys key m hold
      · intro m f' bs hm x hx
        rcases hnew.used m f' bs hm x hx with ⟨heq, f'', bs', hnode, hmem⟩ | hlisted
        · obtain ⟨rfl, rfl⟩ := CcNode.app.inj hnode
          exact .inl ⟨heq, hmem⟩
        · exact .inr hlisted
      · intro m f' bs hm _
        by_cases hmn : m = s.nodes.length
        · subst hmn
          obtain ⟨rfl, rfl⟩ := CcNode.app.inj (Option.some.inj (hfresh.symm.trans hm))
          exact ⟨s.nodes.length, (hhas _ _).mpr (.inl ⟨hkey.symm, rfl⟩), .refl _⟩
        · obtain ⟨k, hk, hj⟩ := hnew.closed m f' bs hm hmn
          exact ⟨k, (hhas _ _).mpr (.inr hk), hj⟩
    obtain ⟨lists', hinv', hnodes', hpend', hne', hundo₂⟩ := hput₁.useArgs hfresh
      (hnew.args _ _ _ hfresh)
    refine ⟨s.nodes.length, _, ?_, ⟨⟨lists', hinv'⟩, hpend'.trans hpend⟩, ?_, ⟨[.app f as], hnodes'⟩,
      hne', (hundo.trans hundo₁).trans hundo₂⟩
    · simp only [ccApp, hlookup, Option.bind_eq_bind, Option.bind_some, hput]
    · rw [hnodes']
      simp [ccNewNode]

end Thvm.CongruenceClosure
