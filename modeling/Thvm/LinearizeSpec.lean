import Mathlib.Data.Fintype.Card
import Mathlib.Data.Fintype.EquivFin
import Mathlib.Data.Fintype.Sets
import Mathlib.Logic.Relation
import Thvm.BoundedLoops
import Thvm.Linearize
import Thvm.TopologicalOrder

/-!
# What the linearizer emits

The depth-first pass lists the nodes that the collected sources lead to, sources first.
The second pass permutes that list and keeps it ordered. A source that the collector
drops takes part in neither.
-/

namespace Thvm.Linearize

open BoundedLoops LinearProbing Relation TopologicalOrder

variable {heap : ℕ → Term} {S : Finset Term} {s t u sink : Term}

/-! ## Graphs -/

/-- The sources of a node that are nodes themselves. -/
def nodeSrcs (heap : ℕ → Term) (t : Term) : List Term :=
  (uopSrcs heap t).filter fun s => s.tag = .uop

/-- Those of them that are collected. -/
def keptSrcs (heap : ℕ → Term) (t : Term) : List Term :=
  (linCollectSrcs heap t).filter fun s => s.tag = .uop

def Feeds (heap : ℕ → Term) (s t : Term) : Prop := s ∈ uopSrcs heap t

def KeptFeeds (heap : ℕ → Term) (s t : Term) : Prop := s ∈ keptSrcs heap t

/-- A finite set of terms without cycles, closed under sources. -/
structure UopDag (heap : ℕ → Term) where
  nodes : Finset Term
  closed : ∀ t ∈ nodes, ∀ s, Feeds heap s t → s ∈ nodes
  acyclic : ∀ t ∈ nodes, ¬TransGen (Feeds heap) t t

/-- Every UOp below the sink once, sources first, the sink last. -/
structure Linearizes (heap : ℕ → Term) (sink : Term) (out : List Term) : Prop where
  nodup : out.Nodup
  mem : ∀ t, t ∈ out ↔ t.tag = .uop ∧ ReflTransGen (Feeds heap) t sink
  ordered : Ordered (nodeSrcs heap) out
  last : out.getLast? = some sink

theorem mem_keptSrcs : s ∈ keptSrcs heap t ↔ s ∈ linCollectSrcs heap t ∧ s.tag = .uop := by
  simp [keptSrcs]

theorem mem_nodeSrcs : s ∈ nodeSrcs heap t ↔ Feeds heap s t ∧ s.tag = .uop := by
  simp [nodeSrcs, Feeds]

theorem feeds_of_collected (h : s ∈ linCollectSrcs heap t) : Feeds heap s t := List.mem_of_mem_take h

theorem KeptFeeds.feeds (h : KeptFeeds heap s t) : Feeds heap s t :=
  feeds_of_collected (mem_keptSrcs.mp h).1

/-- Only UOps have sources. -/
theorem Feeds.uop (h : Feeds heap s t) : t.tag = .uop := by
  by_contra hne
  rw [Feeds, uopSrcs, if_pos hne] at h
  cases h

namespace UopDag

variable (dag : UopDag heap)

theorem mem_of_reaches (ht : t ∈ dag.nodes) (h : ReflTransGen (Feeds heap) s t) : s ∈ dag.nodes := by
  induction h using ReflTransGen.head_induction_on with
  | refl => exact ht
  | head hstep _ ih => exact dag.closed _ ih _ hstep

/-- Going down to sources ends. -/
theorem acc (ht : t ∈ dag.nodes) : Acc (Feeds heap) t := by
  let below : dag.nodes → dag.nodes → Prop := fun s t => TransGen (Feeds heap) s t
  have : IsTrans dag.nodes below := ⟨fun _ _ _ hab hbc => TransGen.trans hab hbc⟩
  have : Std.Irrefl below := ⟨fun s => dag.acyclic s s.2⟩
  have hwf : WellFounded below := Finite.wellFounded_of_trans_of_irrefl below
  suffices h : ∀ t : dag.nodes, Acc (Feeds heap) t from h ⟨t, ht⟩
  intro t
  induction t using hwf.induction with
  | _ t ih =>
    refine Acc.intro _ fun s hs => ?_
    exact ih ⟨s, dag.closed t t.2 s hs⟩ (TransGen.single hs)

end UopDag

/-! ## The depth-first pass -/

/-- The term is recorded as seen. -/
def Saw (st : Toposort) (t : Term) : Prop := linHashGetDefault st.seen t unseen ≠ unseen

/-- What the pass has recorded and emitted so far. -/
structure Explored (heap : ℕ → Term) (S : Finset Term) (st : Toposort) : Prop where
  table : Within linHashProbe S st.seen
  small : ∀ t v, get linHashProbe st.seen t = some v → v < unseen
  saw_iff : ∀ t, t.tag = .uop → (Saw st t ↔ t ∈ st.out)
  uops : ∀ t ∈ st.out, t.tag = .uop
  nodup : st.out.Nodup
  ordered : Ordered (keptSrcs heap) st.out

theorem saw_of_get (seen : LinHash) (f : Term → Option ℕ) (hget : get linHashProbe seen = f)
    (hsmall : ∀ t v, f t = some v → v < unseen) (t : Term) :
    linHashGetDefault seen t unseen ≠ unseen ↔ (f t).isSome := by
  rw [linHashGetDefault, hget]
  cases hf : f t with
  | none => simp
  | some v => simpa using Nat.ne_of_lt (hsmall t v hf)

theorem Explored.saw_isSome {st : Toposort} (h : Explored heap S st) (t : Term) :
    Saw st t ↔ (get linHashProbe st.seen t).isSome := saw_of_get st.seen _ rfl h.small t

/-- A table after one more entry. -/
theorem Explored.put {st : Toposort} (h : Explored heap S st) (ht : t ∈ S) {v : ℕ}
    (hv : v < unseen) :
    Within linHashProbe S (linHashPut st.seen t v).1 ∧
      (∀ s w, get linHashProbe (linHashPut st.seen t v).1 s = some w → w < unseen) ∧
      ∀ s, linHashGetDefault (linHashPut st.seen t v).1 s unseen ≠ unseen ↔ s = t ∨ Saw st s := by
  obtain ⟨hwithin, hget⟩ := put_spec h.table ht v
  have hsmall : ∀ s w, Function.update (get linHashProbe st.seen) t (some v) s = some w →
      w < unseen := by
    intro s w hs
    rw [Function.update_apply] at hs
    split at hs
    · exact Option.some.inj hs ▸ hv
    · exact h.small s w hs
  refine ⟨hwithin, fun s w hs => hsmall s w (hget ▸ hs), fun s => ?_⟩
  refine (saw_of_get _ _ hget hsmall s).trans ?_
  rw [h.saw_isSome, Function.update_apply]
  split
  · next heq => simp [heq]
  · next hne => simp [hne]

/-- A leaf is recorded. -/
theorem Explored.leaf {st : Toposort} (h : Explored heap S st) (ht : t ∈ S) (hleaf : t.tag ≠ .uop)
    (stk : List StkE) :
    Explored heap S { st with stk := stk, seen := (linHashPut st.seen t seenLeaf).1 } := by
  obtain ⟨hwithin, hsmall, hsaw⟩ := h.put ht (v := seenLeaf) (by decide)
  refine ⟨hwithin, hsmall, fun s hs => ?_, h.uops, h.nodup, h.ordered⟩
  have hne : s ≠ t := fun heq => hleaf (heq ▸ hs)
  exact (hsaw s).trans ((or_iff_right hne).trans (h.saw_iff s hs))

/-- A node all of whose sources have been emitted is emitted. -/
theorem Explored.emit {st : Toposort} (h : Explored heap S st) (ht : t ∈ S) (huop : t.tag = .uop)
    (hno : ¬Saw st t) (hcap : st.out.length < linKernelCap)
    (hsrcs : ∀ s ∈ linCollectSrcs heap t, Saw st s) (stk : List StkE) (base : ℕ) :
    Explored heap S ⟨stk, base, st.out ++ [t], (linHashPut st.seen t st.out.length).1⟩ := by
  obtain ⟨hwithin, hsmall, hsaw⟩ := h.put ht (v := st.out.length)
    (Nat.lt_trans hcap (by decide))
  refine ⟨hwithin, hsmall, fun s hs => ?_, ?_, ?_, ?_⟩
  · refine (hsaw s).trans ?_
    rw [h.saw_iff s hs, List.mem_append, List.mem_singleton, or_comm]
  · intro s hs
    rcases List.mem_append.mp hs with hs | hs
    · exact h.uops s hs
    · exact List.mem_singleton.mp hs ▸ huop
  · rw [List.nodup_append_comm]
    exact List.nodup_cons.mpr ⟨fun hmem => hno ((h.saw_iff t huop).mpr hmem), h.nodup⟩
  · refine h.ordered.snoc fun s hs => ?_
    obtain ⟨hs, hsuop⟩ := mem_keptSrcs.mp hs
    exact (h.saw_iff s hsuop).mp (hsrcs s hs)

/-- The loop comes from one state to the other. -/
def Leads (heap : ℕ → Term) (st st' : Toposort) : Prop :=
  ∀ r, Settles (fun n => linToposortLoop heap n st') r →
    Settles (fun n => linToposortLoop heap n st) r

theorem Leads.trans {st st' st'' : Toposort} (h : Leads heap st st') (h' : Leads heap st' st'') :
    Leads heap st st'' := fun r hr => h r (h' r hr)

theorem leads_step {st st' : Toposort}
    (h : ∀ n, linToposortLoop heap (n + 1) st = linToposortLoop heap n st') :
    Leads heap st st' := fun _ hr => hr.succ h

/-- The loop stops at a capacity. -/
def Overflows (heap : ℕ → Term) (st : Toposort) : Prop :=
  Settles (fun n => linToposortLoop heap n st) none

theorem overflows_step {st : Toposort} (h : ∀ n, linToposortLoop heap (n + 1) st = some none) :
    Overflows heap st := by
  refine ⟨1, fun n hn => ?_⟩
  obtain ⟨m, rfl⟩ := Nat.exists_eq_add_of_le' hn
  exact h m

/-- The exploration of a node from one state to another, where it is off the stack. -/
structure Visited (heap : ℕ → Term) (S : Finset Term) (t : Term) (stk : List StkE)
    (st st' : Toposort) : Prop where
  leads : Leads heap st st'
  stk : st'.stk = stk
  explored : Explored heap S st'
  saw : Saw st' t
  keeps : ∀ s, Saw st s → Saw st' s
  below : ∀ s ∈ st'.out, s ∈ st.out ∨ ReflTransGen (KeptFeeds heap) s t

/-- A source that needs no exploration of its own. -/
theorem Visited.step {st st' st'' : Toposort} {stk : List StkE} (hleads : Leads heap st st')
    (hout : st'.out = st.out) (hkeeps : ∀ s, Saw st s → Saw st' s)
    (h : Visited heap S t stk st' st'') : Visited heap S t stk st st'' where
  leads := hleads.trans h.leads
  stk := h.stk
  explored := h.explored
  saw := h.saw
  keeps s hs := h.keeps s (hkeeps s hs)
  below s hs := hout ▸ h.below s hs

/-- The exploration of a source and then of the rest. -/
theorem Visited.after {st st' st'' : Toposort} {stk stk' : List StkE}
    (h : Visited heap S s stk' st st') (hs : KeptFeeds heap s t)
    (h' : Visited heap S t stk st' st'') : Visited heap S t stk st st'' where
  leads := h.leads.trans h'.leads
  stk := h'.stk
  explored := h'.explored
  saw := h'.saw
  keeps u hu := h'.keeps u (h.keeps u hu)
  below u hu := by
    rcases h'.below u hu with hu | hu
    · rcases h.below u hu with hu | hu
      · exact .inl hu
      · exact .inr (hu.tail hs)
    · exact .inr hu

theorem visit (dag : UopDag heap) (ht : t ∈ dag.nodes) (huop : t.tag = .uop) (st : Toposort)
    {passed kids : List Term} {base : ℕ} {stk : List StkE} (hst : Explored heap dag.nodes st)
    (hstk : st.stk = ⟨t, kids, base⟩ :: stk) (hkids : linCollectSrcs heap t = passed ++ kids)
    (hpassed : ∀ s ∈ passed, Saw st s) :
    Overflows heap st ∨ ∃ st', Visited heap dag.nodes t stk st st' := by
  induction dag.acc ht generalizing st passed kids base stk with
  | intro t _ ih =>
    induction kids generalizing st passed with
    | nil =>
      rw [List.append_nil] at hkids
      by_cases hsaw : linHashGetDefault st.seen t unseen = unseen
      · by_cases hcap : linKernelCap ≤ st.out.length
        · exact .inl (overflows_step fun n => by
            rw [linToposortLoop, hstk]
            dsimp only
            rw [if_pos hsaw, if_pos hcap])
        · have hno : ¬Saw st t := not_not.mpr hsaw
          have hsrcs := hkids ▸ hpassed
          obtain ⟨-, -, hput⟩ := hst.put ht (v := st.out.length)
            (Nat.lt_trans (Nat.lt_of_not_le hcap) (by decide))
          refine .inr ⟨_, leads_step fun n => ?_, rfl,
            hst.emit ht huop hno (Nat.lt_of_not_le hcap) hsrcs stk base, (hput t).mpr (.inl rfl),
            fun s hs => (hput s).mpr (.inr hs), ?_⟩
          · rw [linToposortLoop, hstk]
            dsimp only
            rw [if_pos hsaw, if_neg hcap]
          · intro s hs
            rcases List.mem_append.mp hs with hs | hs
            · exact .inl hs
            · exact .inr (List.mem_singleton.mp hs ▸ .refl)
      · refine .inr ⟨{ st with stk := stk, kp := base }, leads_step fun n => ?_, rfl,
          ⟨hst.table, hst.small, hst.saw_iff, hst.uops, hst.nodup, hst.ordered⟩, hsaw,
          fun s hs => hs, fun s hs => .inl hs⟩
        rw [linToposortLoop, hstk]
        dsimp only
        rw [if_neg hsaw]
    | cons child kids ihkids =>
      have hfeeds : Feeds heap child t := by
        apply feeds_of_collected
        rw [hkids]
        exact List.mem_append_right passed List.mem_cons_self
      have hchild : child ∈ dag.nodes := dag.closed t ht child hfeeds
      have hkids' : linCollectSrcs heap t = (passed ++ [child]) ++ kids := by
        rw [hkids, List.append_assoc, List.singleton_append]
      by_cases hsaw : linHashGetDefault st.seen child unseen ≠ unseen
      · have hstep : Leads heap st { st with stk := ⟨t, kids, base⟩ :: stk } :=
          leads_step fun n => by
            rw [linToposortLoop, hstk]
            dsimp only
            rw [if_pos hsaw]
        have hnext := ihkids { st with stk := ⟨t, kids, base⟩ :: stk }
          ⟨hst.table, hst.small, hst.saw_iff, hst.uops, hst.nodup, hst.ordered⟩ rfl hkids'
          fun s hs => by
            rcases List.mem_append.mp hs with hs | hs
            · exact hpassed s hs
            · exact List.mem_singleton.mp hs ▸ hsaw
        rcases hnext with hover | ⟨st', hvisited⟩
        · exact .inl (hstep none hover)
        · exact .inr ⟨st', hvisited.step hstep rfl fun s hs => hs⟩
      · by_cases hleaf : child.tag ≠ .uop
        · obtain ⟨-, -, hput⟩ := hst.put hchild (v := seenLeaf) (by decide)
          have hstep : Leads heap st { st with
              stk := ⟨t, kids, base⟩ :: stk
              seen := (linHashPut st.seen child seenLeaf).1 } := leads_step fun n => by
            rw [linToposortLoop, hstk]
            dsimp only
            rw [if_neg hsaw, if_pos hleaf]
          have hnext := ihkids _ (hst.leaf hchild hleaf (⟨t, kids, base⟩ :: stk)) rfl hkids'
            fun s hs => (hput s).mpr <| by
              rcases List.mem_append.mp hs with hs | hs
              · exact .inr (hpassed s hs)
              · exact .inl (List.mem_singleton.mp hs)
          rcases hnext with hover | ⟨st', hvisited⟩
          · exact .inl (hstep none hover)
          · exact .inr ⟨st', hvisited.step hstep rfl fun s hs => (hput s).mpr (.inr hs)⟩
        · by_cases hstkcap : stkCap ≤ stk.length + 1
          · exact .inl (overflows_step fun n => by
              rw [linToposortLoop, hstk]
              dsimp only
              rw [if_neg hsaw, if_neg hleaf, if_pos hstkcap])
          by_cases hkidscap : kidsCap < st.kp + (linCollectSrcs heap child).length
          · exact .inl (overflows_step fun n => by
              rw [linToposortLoop, hstk]
              dsimp only
              rw [if_neg hsaw, if_neg hleaf, if_neg hstkcap, if_pos hkidscap])
          let pushed : Toposort := { st with
            stk := ⟨child, linCollectSrcs heap child, st.kp⟩ :: ⟨t, kids, base⟩ :: stk
            kp := st.kp + (linCollectSrcs heap child).length }
          have hstep : Leads heap st pushed := leads_step fun n => by
            rw [linToposortLoop, hstk]
            dsimp only
            rw [if_neg hsaw, if_neg hleaf, if_neg hstkcap, if_neg hkidscap]
          have hpushed : Explored heap dag.nodes pushed :=
            ⟨hst.table, hst.small, hst.saw_iff, hst.uops, hst.nodup, hst.ordered⟩
          have hchilduop := not_not.mp hleaf
          have hkept : KeptFeeds heap child t := by
            refine mem_keptSrcs.mpr ⟨?_, hchilduop⟩
            rw [hkids]
            exact List.mem_append_right passed List.mem_cons_self
          rcases ih child hfeeds hchild hchilduop pushed hpushed rfl (List.nil_append _).symm nofun
            with hover | ⟨st', hvisited⟩
          · exact .inl (hstep none hover)
          · have hnext := ihkids st' hvisited.explored hvisited.stk hkids' fun s hs => by
              rcases List.mem_append.mp hs with hs | hs
              · exact hvisited.keeps s (hpassed s hs)
              · exact List.mem_singleton.mp hs ▸ hvisited.saw
            rcases hnext with hover | ⟨st'', hrest⟩
            · exact .inl (hstep none (hvisited.leads none hover))
            · exact .inr ⟨st'', (hvisited.after hkept hrest).step hstep rfl fun s hs => hs⟩

/-- The nodes that the collected sources lead to, each once and after its sources. -/
structure Listed (heap : ℕ → Term) (sink : Term) (topo : List Term) : Prop where
  nodup : topo.Nodup
  ordered : Ordered (keptSrcs heap) topo
  mem : ∀ t, t ∈ topo ↔ t.tag = .uop ∧ ReflTransGen (KeptFeeds heap) t sink

theorem linToposort_listed (dag : UopDag heap) (hsink : sink ∈ dag.nodes) (huop : sink.tag = .uop)
    (hcard : dag.nodes.card < linHtCap) :
    Settles (fun n => linToposort heap n sink) none ∨
      ∃ topo, Settles (fun n => linToposort heap n sink) (some topo) ∧ Listed heap sink topo := by
  have hget : get linHashProbe linHashReset = fun _ => none := by
    funext t
    exact get_empty linHashProbe (by decide) t
  have hstart : Explored heap dag.nodes
      ⟨[⟨sink, linCollectSrcs heap sink, 0⟩], (linCollectSrcs heap sink).length, [],
        linHashReset⟩ := by
    refine ⟨within_empty linHashProbe hcard, fun t v hv => ?_, fun t ht => ?_, nofun, List.nodup_nil,
      ordered_nil⟩
    · rw [hget] at hv
      cases hv
    · rw [Saw, saw_of_get _ _ hget nofun]
      simp
  rcases visit dag hsink huop _ hstart rfl (List.nil_append _).symm nofun with hover | ⟨st, hvisited⟩
  · exact .inl hover
  · have hall : ∀ t, ReflTransGen (KeptFeeds heap) t sink → t.tag = .uop → t ∈ st.out := by
      intro t hreach ht
      induction hreach using ReflTransGen.head_induction_on with
      | refl => exact (hvisited.explored.saw_iff sink huop).mp hvisited.saw
      | head hstep _ ih => exact hvisited.explored.ordered.closed (ih hstep.feeds.uop) _ hstep
    refine .inr ⟨st.out, hvisited.leads _ ?_, hvisited.explored.nodup, hvisited.explored.ordered,
      fun t => ⟨fun ht => ⟨hvisited.explored.uops t ht, ?_⟩, fun ht => hall t ht.2 ht.1⟩⟩
    · refine ⟨1, fun n hn => ?_⟩
      obtain ⟨m, rfl⟩ := Nat.exists_eq_add_of_le' hn
      dsimp only
      rw [linToposortLoop.eq_def]
      dsimp only
      rw [hvisited.stk]
    · exact (hvisited.below t ht).resolve_left List.not_mem_nil

section Listed

variable {topo : List Term}

theorem Listed.consumer (h : Listed heap sink topo) (ht : t ∈ topo) (hne : t ≠ sink) :
    ∃ c ∈ topo, t ∈ keptSrcs heap c := by
  rcases ((h.mem t).mp ht).2.cases_head with rfl | ⟨c, hstep, hreach⟩
  · exact absurd rfl hne
  · exact ⟨c, (h.mem c).mpr ⟨hstep.feeds.uop, hreach⟩, hstep⟩

theorem Listed.mem_nodes (h : Listed heap sink topo) (dag : UopDag heap) (hsink : sink ∈ dag.nodes)
    (ht : t ∈ topo) : t ∈ dag.nodes :=
  dag.mem_of_reaches hsink (ReflTransGen.mono (fun _ _ h => KeptFeeds.feeds h) _ _ ((h.mem t).mp ht).2)

/-! ## Consumers -/

/-- The table has the count of every term. -/
structure Tallied (S : Finset Term) (outDeg : LinHash) (deg : Term → ℕ) : Prop where
  table : Within linHashProbe S outDeg
  eq : ∀ v, linHashGetDefault outDeg v 0 = deg v

variable {outDeg : LinHash} {deg : Term → ℕ}

theorem Tallied.put (h : Tallied S outDeg deg) (ht : t ∈ S) (n : ℕ) :
    Tallied S (linHashPut outDeg t n).1 (Function.update deg t n) := by
  obtain ⟨hwithin, hget⟩ := put_spec h.table ht n
  refine ⟨hwithin, fun v => ?_⟩
  refine (congrArg (fun f => Option.getD (f v) 0) hget).trans ?_
  rw [Function.update_apply, Function.update_apply]
  split
  · rfl
  · exact h.eq v

theorem Tallied.congr {deg' : Term → ℕ} (h : Tallied S outDeg deg) (heq : ∀ v, deg v = deg' v) :
    Tallied S outDeg deg' := ⟨h.table, fun v => (h.eq v).trans (heq v)⟩

theorem Tallied.countSrcs (h : Tallied S outDeg deg) {srcs : List Term} (hsrcs : ∀ s ∈ srcs, s ∈ S) :
    Tallied S (srcs.foldl linCountSrc outDeg)
      fun v => deg v + (srcs.filter fun s => s.tag = .uop).count v := by
  induction srcs generalizing outDeg deg with
  | nil => exact h
  | cons s srcs ih =>
    rw [List.forall_mem_cons] at hsrcs
    rw [List.foldl_cons, linCountSrc]
    by_cases hleaf : s.tag ≠ .uop
    · rw [if_pos hleaf]
      refine (ih h hsrcs.2).congr fun v => ?_
      rw [List.filter_cons_of_neg (by simpa using hleaf)]
    · rw [if_neg hleaf]
      refine (ih (h.put hsrcs.1 _) hsrcs.2).congr fun v => ?_
      rw [List.filter_cons_of_pos (by simpa using hleaf), List.count_cons, Function.update_apply,
        h.eq]
      by_cases hv : v = s
      · subst hv
        simp
        omega
      · rw [if_neg hv, if_neg (by simpa using Ne.symm hv), Nat.add_zero]

theorem linBuildOutDegree_tallied (dag : UopDag heap) (hcard : dag.nodes.card < linHtCap)
    (htopo : ∀ t ∈ topo, t ∈ dag.nodes) :
    Tallied dag.nodes (linBuildOutDegree heap topo) (uses (keptSrcs heap) topo) := by
  have hfold : ∀ outDeg deg, Tallied dag.nodes outDeg deg →
      Tallied dag.nodes (topo.foldl (fun d t => (linCollectSrcs heap t).foldl linCountSrc d) outDeg)
        fun v => deg v + uses (keptSrcs heap) topo v := by
    induction topo with
    | nil => exact fun outDeg deg h => h
    | cons t topo ih =>
      rw [List.forall_mem_cons] at htopo
      intro outDeg deg h
      refine (ih htopo.2 _ _ (h.countSrcs fun s hs =>
        dag.closed t htopo.1 s (feeds_of_collected hs))).congr fun v => ?_
      rw [uses_cons, keptSrcs, Nat.add_assoc]
  have hstart : Tallied dag.nodes linHashReset fun _ => 0 := by
    refine ⟨within_empty linHashProbe hcard, fun v => ?_⟩
    exact congrArg (fun o => Option.getD o 0) (get_empty linHashProbe (by decide) v)
  exact (hfold _ _ hstart).congr fun v => Nat.zero_add _

end Listed

/-! ## The heap -/

theorem swap_terms (h : Array LinHeapEntry) (i j : ℕ) :
    ((h.swapIfInBounds i j).toList.map LinHeapEntry.t).Perm (h.toList.map LinHeapEntry.t) := by
  rw [Array.swapIfInBounds_def]
  split
  · split
    · exact (Array.perm_iff_toList_perm.mp (Array.swap_perm ‹_› ‹_›)).map _
    · exact .refl _
  · exact .refl _

theorem linSiftUp_terms (rounds i : ℕ) (h : Array LinHeapEntry) :
    ((linSiftUp rounds i h).toList.map LinHeapEntry.t).Perm (h.toList.map LinHeapEntry.t) := by
  induction rounds generalizing i h with
  | zero => exact .refl _
  | succ rounds ih =>
    rw [linSiftUp]
    split
    · exact .refl _
    · split
      · exact .refl _
      · exact (ih _ _).trans (swap_terms h _ _)

theorem linHeapPush_terms (h : Array LinHeapEntry) (nkey : ℕ) (t : Term) :
    ((linHeapPush h nkey t).toList.map LinHeapEntry.t).Perm (t :: h.toList.map LinHeapEntry.t) := by
  refine (linSiftUp_terms _ _ _).trans ?_
  rw [Array.toList_push, List.map_append]
  exact List.perm_append_singleton _ _

theorem linSiftDown_terms (rounds i : ℕ) (h : Array LinHeapEntry) :
    ((linSiftDown rounds i h).toList.map LinHeapEntry.t).Perm (h.toList.map LinHeapEntry.t) := by
  induction rounds generalizing i h with
  | zero => exact .refl _
  | succ rounds ih =>
    rw [linSiftDown]
    split
    · exact .refl _
    · exact (ih _ _).trans (swap_terms h _ _)

/-- The root goes, the others stay. -/
theorem linHeapPop_terms {h : Array LinHeapEntry} (hsize : h.size ≠ 0) :
    ((linHeapPop h).1 :: (linHeapPop h).2.toList.map LinHeapEntry.t).Perm
      (h.toList.map LinHeapEntry.t) := by
  obtain ⟨entries⟩ := h
  rcases List.eq_nil_or_concat entries with rfl | ⟨entries, last, rfl⟩
  · exact absurd rfl hsize
  · rw [List.concat_eq_append, linHeapPop]
    dsimp only
    cases entries with
    | nil => simp
    | cons root entries =>
      simp only [List.pop_toArray, List.dropLast_concat]
      rw [if_neg (by simp)]
      refine ((linSiftDown_terms _ _ _).cons _).trans ?_
      have hback : (root :: (entries ++ [last])).getLast?.getD default = last := by
        rw [← List.cons_append, List.getLast?_concat, Option.getD_some]
      simpa [hback] using (List.perm_append_singleton last.t (entries.map LinHeapEntry.t)).symm

/-! ## The second pass -/

section Emission

variable {topo : List Term} {nkeys : LinHash} {st : Emission} {deg : Term → ℕ}

def Emission.terms (st : Emission) : List Term := st.ready.toList.map LinHeapEntry.t

/-- A state of the pass over a listed graph. -/
structure Emitting (heap : ℕ → Term) (S : Finset Term) (topo : List Term) (st : Emission)
    (pending : List Term) : Prop where
  nodes : ∀ t ∈ topo, t ∈ S
  tally : ∃ deg, Tallied S st.outDeg deg ∧
    Taking (keptSrcs heap) topo deg st.terms st.newlst pending

theorem Emitting.release {pending : List Term} (huop : t.tag = .uop)
    (h : Emitting heap S topo st (t :: pending)) :
    Emitting heap S topo (linRelease nkeys st t) pending := by
  obtain ⟨hnodes, deg, htally, htaking⟩ := h
  have hput := htally.put (hnodes t (htaking.sources t List.mem_cons_self)) (deg t - 1)
  refine ⟨hnodes, Function.update deg t (deg t - 1), ?_⟩
  rw [linRelease, if_neg (not_not.mpr huop)]
  dsimp only
  rw [htally.eq, if_neg (Nat.ne_of_gt htaking.deg_pos)]
  split
  · next hlast =>
    exact ⟨hput, (htaking.release_last hlast).perm (linHeapPush_terms _ _ _).symm⟩
  · next hmore => exact ⟨hput, htaking.release hmore⟩

theorem Emitting.releaseAll {srcs : List Term}
    (h : Emitting heap S topo st (srcs.filter fun s => s.tag = .uop)) :
    Emitting heap S topo (srcs.foldl (linRelease nkeys) st) [] := by
  induction srcs generalizing st with
  | nil => exact h
  | cons s srcs ih =>
    rw [List.foldl_cons]
    by_cases hleaf : s.tag ≠ .uop
    · rw [linRelease, if_pos hleaf]
      rw [List.filter_cons_of_neg (by simpa using hleaf)] at h
      exact ih h
    · rw [List.filter_cons_of_pos (by simpa using hleaf)] at h
      exact ih (h.release (not_not.mp hleaf))

theorem Emitting.done (hlisted : Listed heap sink topo) (h : Emitting heap S topo st [])
    (hsize : st.ready.size = 0) : st.newlst.Perm topo ∧ Ordered (keptSrcs heap) st.newlst := by
  obtain ⟨-, deg, -, htaking⟩ := h
  rw [Emission.terms, Array.eq_empty_of_size_eq_zero hsize] at htaking
  exact ⟨htaking.complete hlisted.ordered hlisted.nodup,
    htaking.ordered hlisted.ordered hlisted.nodup⟩

theorem linEmitLoop_spec (hlisted : Listed heap sink topo) (rounds : ℕ)
    (h : Emitting heap S topo st []) {out : List Term}
    (hrun : linEmitLoop heap nkeys rounds st = some out) :
    out.Perm topo ∧ Ordered (keptSrcs heap) out := by
  induction rounds generalizing st with
  | zero =>
    rw [linEmitLoop] at hrun
    split at hrun
    · next hsize => exact Option.some.inj hrun ▸ h.done hlisted hsize
    · cases hrun
  | succ rounds ih =>
    rw [linEmitLoop] at hrun
    split at hrun
    · next hsize => exact Option.some.inj hrun ▸ h.done hlisted hsize
    · next hsize =>
      obtain ⟨hnodes, deg, htally, htaking⟩ := h
      have hready := htaking.perm (linHeapPop_terms hsize).symm
      have hu := hready.subset _ List.mem_cons_self
      have htake : Emitting heap S topo
          ⟨(linHeapPop st.ready).2, st.outDeg, (linHeapPop st.ready).1 :: st.newlst⟩
          (keptSrcs heap (linHeapPop st.ready).1) :=
        ⟨hnodes, deg, htally, hready.take (hlisted.ordered.closed hu)⟩
      exact ih htake.releaseAll hrun

/-- The emitted list has the listed nodes, sources first and the sink at the end. -/
theorem linEmit_spec (dag : UopDag heap) (hsink : sink ∈ dag.nodes)
    (hcard : dag.nodes.card < linHtCap) (huop : sink.tag = .uop) (hlisted : Listed heap sink topo)
    {out : List Term}
    (hrun : linEmit heap sink nkeys (linBuildOutDegree heap topo) = some out) :
    Listed heap sink out ∧ out.getLast? = some sink := by
  have hnodes : ∀ t ∈ topo, t ∈ dag.nodes := fun t => hlisted.mem_nodes dag hsink
  have hmem : sink ∈ topo := (hlisted.mem sink).mpr ⟨huop, .refl⟩
  have hcons : ∀ t ∈ topo, t ≠ sink → ∃ c ∈ topo, t ∈ keptSrcs heap c := fun t =>
    hlisted.consumer
  have hstart : Emitting heap dag.nodes topo
      ⟨linHeapPush #[] (linHashGetDefault nkeys sink 0) sink, linBuildOutDegree heap topo, []⟩
      [] := by
    refine ⟨hnodes, _, linBuildOutDegree_tallied dag hcard hnodes, ?_⟩
    obtain ⟨l, rfl⟩ := hlisted.ordered.last_eq hlisted.nodup hmem hcons
    exact (Taking.initial hlisted.ordered hlisted.nodup hcons).perm
      (linHeapPush_terms #[] _ sink).symm
  obtain ⟨hperm, hord⟩ := linEmitLoop_spec hlisted linKernelCap hstart hrun
  have hout : Listed heap sink out := ⟨hperm.nodup_iff.mpr hlisted.nodup, hord, fun t =>
    hperm.mem_iff.trans (hlisted.mem t)⟩
  obtain ⟨l, rfl⟩ := hord.last_eq hout.nodup (hperm.mem_iff.mpr hmem) fun t => hout.consumer
  exact ⟨hout, by simp⟩

end Emission

/-! ## Priorities take no part -/

/-- One source of the product. -/
def rangeStep (heap : ℕ → Term) (n : ℕ) (acc : ℕ × LinHash) (src : Term) : Option (ℕ × LinHash) :=
  (linRangeProduct heap n src acc.2).bind fun q => some (acc.1 * q.1 % 2 ^ 64, q.2)

theorem linRangeProduct_settles (h : Acc (Feeds heap) t) (seen : LinHash) :
    ∃ r, Settles (fun n => linRangeProduct heap n t seen) r := by
  induction h generalizing seen with
  | intro t _ ih =>
    by_cases hleaf : t.tag ≠ .uop
    · exact ⟨_, (Settles.const _).succ fun n => by rw [linRangeProduct, if_pos hleaf]⟩
    by_cases hrange : t.ext = Uop.range
    · refine ⟨_, (Settles.const (if (linHashPut seen t 1).2 then
        (if uopRangeExtent heap t = 0 then 1 else uopRangeExtent heap t, (linHashPut seen t 1).1)
        else (1, (linHashPut seen t 1).1))).succ fun n => ?_⟩
      rw [linRangeProduct, if_neg hleaf, if_pos hrange]
      dsimp only
      split <;> rfl
    have hfold : ∀ srcs : List Term, (∀ s ∈ srcs, Feeds heap s t) → ∀ acc : ℕ × LinHash,
        ∃ r, Settles (fun n => srcs.foldlM (rangeStep heap n) acc) r := by
      intro srcs hsrcs
      induction srcs with
      | nil => exact fun acc => ⟨acc, Settles.const acc⟩
      | cons s srcs ihs =>
        rw [List.forall_mem_cons] at hsrcs
        intro acc
        obtain ⟨⟨p, seen'⟩, hp⟩ := ih s hsrcs.1 acc.2
        obtain ⟨r, hr⟩ := ihs hsrcs.2 (acc.1 * p % 2 ^ 64, seen')
        refine ⟨r, Settles.congr (hp.bind (g := fun n q => srcs.foldlM (rangeStep heap n)
          (acc.1 * q.1 % 2 ^ 64, q.2)) hr) fun n => ?_⟩
        rw [List.foldlM_cons]
        simp [rangeStep, Option.bind_assoc]
    obtain ⟨r, hr⟩ := hfold _ (fun s => feeds_of_collected) (1, seen)
    refine ⟨r, hr.succ fun n => ?_⟩
    rw [linRangeProduct, if_neg hleaf, if_neg hrange]
    rfl

theorem linKey_settles (h : Acc (Feeds heap) t) : ∃ k, Settles (fun n => linKey heap n t) k := by
  obtain ⟨r, hr⟩ := linRangeProduct_settles h linHashReset
  exact ⟨_, hr.bind (Settles.const _)⟩

theorem mapM_settles {f : ℕ → Term → Option ℕ} {l : List Term}
    (h : ∀ t ∈ l, ∃ k, Settles (fun n => f n t) k) :
    ∃ ks, Settles (fun n => l.mapM (f n)) ks := by
  choose! g hg using h
  exact ⟨l.map g, Settles.mapM hg⟩

/-- What follows the depth-first pass. -/
def linRest (heap : ℕ → Term) (sink : Term) (rounds : ℕ) :
    Option (List Term) → Option (Option (List Term))
  | none => some none
  | some topo => do
    let keys ← topo.mapM (linKey heap rounds)
    some (linEmit heap sink (linAssignNkey topo keys) (linBuildOutDegree heap topo))

/-- The whole function ends; a list it returns has the nodes that the collected sources lead to. -/
theorem uopLinearize_settles (dag : UopDag heap) (hsink : sink ∈ dag.nodes)
    (hcard : dag.nodes.card < linHtCap) :
    ∃ res, Settles (fun n => uopLinearize heap n sink) res ∧
      ∀ out, res = some out → Listed heap sink out ∧ out.getLast? = some sink := by
  by_cases hleaf : sink.tag ≠ .uop
  · refine ⟨none, (Settles.const none).congr fun n => ?_, nofun⟩
    rw [uopLinearize, if_pos hleaf]
  have huop := not_not.mp hleaf
  have hrun : ∀ n, uopLinearize heap n sink = linToposort heap n sink >>= linRest heap sink n :=
    fun n => by
      rw [uopLinearize, if_neg hleaf]
      rfl
  rcases linToposort_listed dag hsink huop hcard with hover | ⟨topo, htopo, hlisted⟩
  · exact ⟨none, (hover.bind (g := linRest heap sink) (Settles.const none)).congr hrun, nofun⟩
  · have hkeys : ∀ t ∈ topo, ∃ k, Settles (fun n => linKey heap n t) k := fun t ht =>
      linKey_settles (dag.acc (hlisted.mem_nodes dag hsink ht))
    obtain ⟨keys, hkeys⟩ := mapM_settles hkeys
    let res := linEmit heap sink (linAssignNkey topo keys) (linBuildOutDegree heap topo)
    have hrest : Settles (fun n => linRest heap sink n (some topo)) res :=
      hkeys.bind (g := fun _ keys => some (linEmit heap sink (linAssignNkey topo keys)
        (linBuildOutDegree heap topo))) (Settles.const res)
    exact ⟨res, (htopo.bind (g := linRest heap sink) hrest).congr hrun, fun out hout =>
      linEmit_spec dag hsink hcard huop hlisted hout⟩

/-! ## More rounds -/

theorem linToposortLoop_lasting (st : Toposort) :
    Lasting fun n => linToposortLoop heap n st := by
  intro n r hr
  dsimp only at hr ⊢
  induction n generalizing st with
  | zero => cases hr
  | succ n ih =>
    rw [linToposortLoop.eq_def] at hr ⊢
    dsimp only at hr ⊢
    split at hr
    · exact hr
    · split_ifs at hr ⊢
      · exact hr
      · exact ih _ hr
      · exact ih _ hr
    · split_ifs at hr ⊢
      · exact ih _ hr
      · exact ih _ hr
      · exact hr
      · exact hr
      · exact ih _ hr

theorem linRangeProduct_lasting (t : Term) (seen : LinHash) :
    Lasting fun n => linRangeProduct heap n t seen := by
  intro n r hr
  dsimp only at hr ⊢
  induction n generalizing t seen r with
  | zero => cases hr
  | succ n ih =>
    rw [linRangeProduct] at hr ⊢
    split_ifs at hr ⊢
    · exact hr
    · exact hr
    · refine foldlM_extends (fun acc src x hx => ?_) _ _ hr
      obtain ⟨q, hq, hx⟩ := Option.bind_eq_some_iff.mp hx
      exact Option.bind_eq_some_iff.mpr ⟨q, ih src acc.2 q hq, hx⟩

theorem uopLinearize_lasting (sink : Term) : Lasting fun n => uopLinearize heap n sink := by
  by_cases hleaf : sink.tag ≠ .uop
  · refine (Lasting.const (some none)).congr fun n => ?_
    rw [uopLinearize, if_pos hleaf]
  · refine Lasting.congr (f := fun n => linToposort heap n sink >>= linRest heap sink n)
      ((linToposortLoop_lasting _).bind fun o => ?_) fun n => ?_
    · cases o with
      | none => exact Lasting.const _
      | some topo =>
        refine (Lasting.mapM (fun t => ?_) topo).bind fun keys => Lasting.const _
        exact (linRangeProduct_lasting t _).bind fun p => Lasting.const _
    · rw [uopLinearize, if_neg hleaf]
      rfl

/-! ## Sources that are dropped -/

/-- What is not collected of a node's sources is still met below it. -/
def KeepsSrcs (heap : ℕ → Term) (t : Term) : Prop :=
  ∀ s ∈ nodeSrcs heap t, TransGen (KeptFeeds heap) s t

/-- A node of at most `LIN_SRC_CAP` sources keeps them. -/
theorem keepsSrcs_of_length (h : (uopSrcs heap t).length ≤ linSrcCap) : KeepsSrcs heap t := by
  intro s hs
  refine TransGen.single (mem_keptSrcs.mpr ⟨?_, (mem_nodeSrcs.mp hs).2⟩)
  rw [linCollectSrcs, List.take_of_length_le h]
  exact (mem_nodeSrcs.mp hs).1

theorem Listed.linearizes {out : List Term} (h : Listed heap sink out)
    (hlast : out.getLast? = some sink)
    (hkeeps : ∀ t, ReflTransGen (Feeds heap) t sink → KeepsSrcs heap t) :
    Linearizes heap sink out where
  nodup := h.nodup
  mem t := by
    rw [h.mem]
    refine and_congr_right fun ht => ⟨fun hreach => ?_, fun hreach => ?_⟩
    · exact ReflTransGen.mono (fun _ _ h => KeptFeeds.feeds h) _ _ hreach
    · induction hreach using ReflTransGen.head_induction_on with
      | refl => exact .refl
      | head hstep hreach ih =>
        have hkept := hkeeps _ hreach _ (mem_nodeSrcs.mpr ⟨hstep, ht⟩)
        exact hkept.to_reflTransGen.trans (ih hstep.uop)
  ordered l₁ u l₂ heq s hs := by
    have hu : u ∈ out := heq ▸ List.mem_append_right l₁ List.mem_cons_self
    have hreach := ReflTransGen.mono (fun _ _ h => KeptFeeds.feeds h) _ _ ((h.mem u).mp hu).2
    exact h.ordered.before heq (hkeeps u hreach s hs)
  last := hlast

/-- A returned list is a valid program when every dropped source is met below its node; and a
valid program has every dropped source below the sink some other way. -/
theorem uopLinearize_valid (dag : UopDag heap) (hsink : sink ∈ dag.nodes)
    (hcard : dag.nodes.card < linHtCap) :
    (∃ N, ∀ n, N ≤ n → (uopLinearize heap n sink).isSome) ∧
      ∀ n out, uopLinearize heap n sink = some (some out) →
        ((∀ t, ReflTransGen (Feeds heap) t sink → KeepsSrcs heap t) → Linearizes heap sink out) ∧
        (Linearizes heap sink out → ∀ t, ReflTransGen (Feeds heap) t sink →
          ∀ s ∈ nodeSrcs heap t, ReflTransGen (KeptFeeds heap) s sink) := by
  obtain ⟨res, hres, hspec⟩ := uopLinearize_settles dag hsink hcard
  constructor
  · obtain ⟨N, hN⟩ := hres
    refine ⟨N, fun n hn => ?_⟩
    have hrun : uopLinearize heap n sink = some res := hN n hn
    rw [hrun, Option.isSome_some]
  · intro n out hout
    obtain ⟨hlisted, hlast⟩ := hspec out (hres.eq_of_lasting (uopLinearize_lasting sink) hout).symm
    refine ⟨hlisted.linearizes hlast, fun hvalid t ht s hs => ?_⟩
    obtain ⟨hfeeds, huop⟩ := mem_nodeSrcs.mp hs
    have hmem := (hvalid.mem s).mpr ⟨huop, ht.head hfeeds⟩
    exact ((hlisted.mem s).mp hmem).2

/-! ## A wide stack -/

section Wide

def wideConst (i : ℕ) : Term := ⟨false, .uop, Uop.const, 300 + i⟩

def wideStack : Term := ⟨false, .uop, Uop.stack, 200⟩

/-- A stack of `n` constants at 200; the bits of a constant are its number. -/
def wideHeap (n : ℕ) (loc : ℕ) : Term :=
  if loc < 200 then Term.zero
  else if loc = 200 then ⟨false, .num, dtInt32, n⟩
  else if loc < 300 then wideConst (loc - 201)
  else ⟨false, .num, dtInt32, loc - 300⟩

theorem wideHeap_feeds {n : ℕ} (h : Feeds (wideHeap n) s wideStack) :
    ∃ i < n % 2 ^ 32, s = wideHeap n (201 + i) := by
  obtain ⟨hs, -⟩ := List.mem_filter.mp h
  obtain ⟨i, hi, rfl⟩ := List.mem_map.mp hs
  exact ⟨i, List.mem_range.mp hi, rfl⟩

theorem wideConst_feeds {n i : ℕ} : ¬Feeds (wideHeap n) s (wideConst i) := by
  intro h
  cases h

theorem wideHeap_cell {n i : ℕ} (hn : n ≤ 99) (hi : i < n) :
    wideHeap n (201 + i) = wideConst i := by
  rw [wideHeap, if_neg (by omega), if_neg (by omega), if_pos (by omega), Nat.add_sub_cancel_left]

def wideDag (n : ℕ) (hn : n ≤ 99) : UopDag (wideHeap n) where
  nodes := insert wideStack ((Finset.range n).image wideConst)
  closed t ht s hs := by
    rcases Finset.mem_insert.mp ht with rfl | ht
    · obtain ⟨i, hi, rfl⟩ := wideHeap_feeds hs
      rw [Nat.mod_eq_of_lt (by omega)] at hi
      rw [wideHeap_cell hn hi]
      exact Finset.mem_insert_of_mem (Finset.mem_image_of_mem _ (Finset.mem_range.mpr hi))
    · obtain ⟨i, -, rfl⟩ := Finset.mem_image.mp ht
      exact absurd hs wideConst_feeds
  acyclic t ht h := by
    obtain ⟨c, hreach, hc⟩ := TransGen.tail'_iff.mp h
    rcases Finset.mem_insert.mp ht with rfl | ht
    · obtain ⟨i, hi, rfl⟩ := wideHeap_feeds hc
      rw [Nat.mod_eq_of_lt (by omega)] at hi
      rw [wideHeap_cell hn hi] at hreach
      rcases hreach.cases_tail with heq | ⟨d, -, hd⟩
      · cases heq
      · exact wideConst_feeds hd
    · obtain ⟨i, -, rfl⟩ := Finset.mem_image.mp ht
      exact wideConst_feeds hc

/-- The list of a stack of five constants. -/
def narrowOut : List Term := (List.range 5).map wideConst ++ [wideStack]

theorem uopLinearize_narrow :
    uopLinearize (wideHeap 5) 40 wideStack = some (some narrowOut) ∧
      Linearizes (wideHeap 5) wideStack narrowOut := by
  have hrun : uopLinearize (wideHeap 5) 40 wideStack = some (some narrowOut) := by decide +kernel
  refine ⟨hrun, ((uopLinearize_valid (wideDag 5 (by omega)) (Finset.mem_insert_self _ _)
    (by decide +kernel)).2 40 narrowOut hrun).1 fun t ht => ?_⟩
  have hmem := (wideDag 5 (by omega)).mem_of_reaches (Finset.mem_insert_self _ _) ht
  apply keepsSrcs_of_length
  rcases Finset.mem_insert.mp hmem with rfl | hmem
  · decide +kernel
  · obtain ⟨i, -, rfl⟩ := Finset.mem_image.mp hmem
    exact Nat.zero_le _

/-- A stack of 17 constants: the last one is missing. -/
theorem uopLinearize_wide :
    wideStack ∈ (wideDag 17 (by omega)).nodes ∧ (wideDag 17 (by omega)).nodes.card ≤ linKernelCap ∧
      ∃ out, uopLinearize (wideHeap 17) 100 wideStack = some (some out) ∧
        ¬Linearizes (wideHeap 17) wideStack out := by
  refine ⟨Finset.mem_insert_self _ _, by decide +kernel,
    (List.range 16).map wideConst ++ [wideStack], by decide +kernel, fun h => ?_⟩
  have hfeeds : Feeds (wideHeap 17) (wideConst 16) wideStack := by
    rw [Feeds]
    decide +kernel
  have hmem := (h.mem (wideConst 16)).mpr ⟨rfl, ReflTransGen.single hfeeds⟩
  revert hmem
  decide +kernel

end Wide

end Thvm.Linearize
