import Thvm.BoundedLoops
import Thvm.ClauseInference
import Thvm.FtEncoding

/-!
# The flat matcher is the matcher of terms

At every moment of its walk the flat matcher stands in front of what is left of the pattern
and of the subject, with the bindings that the matcher of terms has made so far. When it
fails it takes back the bindings of this call.
-/

namespace Thvm.Ft

open ThreadedTrees BoundedLoops

variable {m : FtMemory} {U : Set Addr} {p q x : Addr} {o : Option Addr} {s t u : FTerm}
  {ps ts as bs : List FTerm} {id n rounds : ℕ} {b b' : ℕ → Option FTerm} {out out' : AtpFtSubst}

namespace AtpFtSubst

variable {s s' : AtpFtSubst}

/-- The second one has been made from the first one by further bindings. -/
def Extends (s s' : AtpFtSubst) : Prop := s.wm ≤ s'.wm ∧ s'.rewind s.wm = s

theorem Extends.refl (s : AtpFtSubst) : Extends s s := by
  refine ⟨le_rfl, ?_⟩
  rw [rewind, Nat.sub_self]
  rfl

theorem pop_push (hfree : s.bind id = none) (hid : id < atpftMaxVars) :
    (s.push id p hfree hid).pop = s := by
  apply AtpFtSubst.ext
  · change Function.update (Function.update s.bind id (some p)) id none = s.bind
    rw [Function.update_idem, ← hfree, Function.update_eq_self]
  · rfl

theorem Extends.push (h : Extends s s') (hfree : s'.bind id = none) (hid : id < atpftMaxVars) :
    Extends s (s'.push id p hfree hid) := by
  have hwm : (s'.push id p hfree hid).wm = s'.wm + 1 := rfl
  refine ⟨by rw [hwm]; exact Nat.le_succ_of_le h.1, ?_⟩
  rw [rewind, hwm, Nat.succ_sub h.1, popMany, pop_push]
  exact h.2

end AtpFtSubst

open AtpFtSubst

/-- The terms that are bound have fewer cells than there are rounds. -/
def BoundBelow (rounds : ℕ) (b : ℕ → Option FTerm) : Prop :=
  ∀ id t, b id = some t → (cellTree t).size < rounds

theorem BoundBelow.update (h : BoundBelow rounds b) (ht : (cellTree t).size < rounds) (id : ℕ) :
    BoundBelow rounds (Function.update b id (some t)) := by
  intro x u hu
  by_cases hx : x = id
  · subst hx
    rw [Function.update_self] at hu
    cases hu
    exact ht
  · rw [Function.update_of_ne hx] at hu
    exact h x u hu

/-- Some number of rounds is enough for all the bound terms. -/
theorem exists_boundBelow (h : Corresponds m U out.bind b) : ∃ N, BoundBelow N b := by
  have hlist : ∀ ids : List ℕ, ∃ N, ∀ id ∈ ids, ∀ t, b id = some t → (cellTree t).size < N := by
    intro ids
    induction ids with
    | nil => exact ⟨0, fun id hid => absurd hid List.not_mem_nil⟩
    | cons id ids ih =>
      obtain ⟨N, hN⟩ := ih
      refine ⟨N + ((b id).elim 0 fun t => (cellTree t).size) + 1, fun x hx t ht => ?_⟩
      rcases List.mem_cons.mp hx with rfl | hx
      · rw [ht, Option.elim_some]
        omega
      · have := hN x hx t ht
        omega
  obtain ⟨N, hN⟩ := hlist out.boundIds
  refine ⟨N, fun id t ht => hN id ?_ t ht⟩
  obtain ⟨p, hp, -⟩ := h.bound ht
  rw [← out.bound, hp]
  rfl

theorem ftMatchVar_free (hfree : out.bind id = none) (hid : id < rewriteMaxVar) :
    ftMatchVar m rounds id x out = some (some (out.push id x hfree hid)) := by
  rw [ftMatchVar, dif_pos (show id < atpftMaxVars from hid)]
  split
  · rfl
  · rename_i prev hprev
    rw [hprev] at hfree
    cases hfree

theorem ftMatchVar_bound (hprev : out.bind id = some q) (hid : id < rewriteMaxVar)
    (heq : ftEq m rounds q x = some (decide (u = t))) :
    ftMatchVar m rounds id x out = some (if u = t then some out else none) := by
  rw [ftMatchVar, dif_pos (show id < atpftMaxVars from hid)]
  split
  · rename_i hfree
    rw [hprev] at hfree
    cases hfree
  · rename_i prev hprev'
    rw [hprev] at hprev'
    cases hprev'
    rw [heq]
    by_cases h : u = t <;> simp [h]

/-- What the flat matcher finds at one variable. -/
theorem ftMatchVar_spec {s₀ : AtpFtSubst} (hcorr : Corresponds m U out.bind b)
    (hext : Extends s₀ out) (hid : id < rewriteMaxVar) (ht : Encodes m U x t) :
    (∃ b' out', thvmMatch (.fvr id) t b = (true, b') ∧ Corresponds m U out'.bind b' ∧
      Extends s₀ out' ∧ ∀ rounds, BoundBelow rounds b → (cellTree t).size < rounds →
        ftMatchVar m rounds id x out = some (some out') ∧ BoundBelow rounds b') ∨
    (thvmMatch (.fvr id) t b).1 = false ∧ ∀ rounds, BoundBelow rounds b →
      ftMatchVar m rounds id x out = some none := by
  rw [thvmMatch, if_neg (Nat.not_le.mpr hid)]
  cases hb : b id with
  | none =>
    have hfree := hcorr.free hb
    refine .inl ⟨_, out.push id x hfree hid, rfl, hcorr.update id ht, hext.push hfree hid, ?_⟩
    exact fun rounds hbelow hsize => ⟨ftMatchVar_free hfree hid, hbelow.update hsize id⟩
  | some u =>
    obtain ⟨prev, hprev, hu⟩ := hcorr.bound hb
    have hrun : ∀ rounds, BoundBelow rounds b →
        ftMatchVar m rounds id x out = some (if u = t then some out else none) :=
      fun rounds hbelow => ftMatchVar_bound hprev hid (ftEq_encodes hu ht (hbelow id u hb))
    by_cases heq : u = t
    · refine .inl ⟨b, out, ?_, hcorr, hext, fun rounds hbelow _ => ⟨?_, hbelow⟩⟩
      · exact Prod.ext (kboEq_iff.mpr heq) rfl
      · rw [hrun rounds hbelow, if_pos heq]
    · refine .inr ⟨Bool.eq_false_iff.mpr fun h => heq (kboEq_iff.mp h), fun rounds hbelow => ?_⟩
      rw [hrun rounds hbelow, if_neg heq]

theorem thvmMatchArgs_append (hlen : as.length = bs.length) :
    thvmMatchArgs (as ++ ps) (bs ++ ts) b = if (thvmMatchArgs as bs b).1 then
      thvmMatchArgs ps ts (thvmMatchArgs as bs b).2 else thvmMatchArgs as bs b := by
  induction as generalizing bs b with
  | nil =>
    obtain rfl := List.length_eq_zero_iff.mp hlen.symm
    rfl
  | cons a as ih =>
    cases bs with
    | nil => cases hlen
    | cons c bs =>
      rw [List.cons_append, List.cons_append, thvmMatchArgs, thvmMatchArgs]
      by_cases hok : (thvmMatch a c b).1 = true
      · simp only [hok, if_true]
        exact ih (Nat.succ.inj hlen)
      · simp [hok]

theorem thvmMatchArgs_node {f : ℕ} (hlen : as.length = bs.length) :
    thvmMatchArgs (.node f as :: ps) (.node f bs :: ts) b =
      thvmMatchArgs (as ++ ps) (bs ++ ts) b := by
  rw [thvmMatchArgs_append hlen, thvmMatchArgs, thvmMatch, if_neg (by simp),
    if_neg (by simp [hlen])]
  by_cases hok : (thvmMatchArgs as bs b).1 = true
  · simp [hok]
  · simp only [hok, Bool.false_eq_true, if_false]
    exact Prod.ext (Bool.eq_false_iff.mpr hok).symm rfl

theorem thvmMatchArgs_single : thvmMatchArgs [s] [t] b = thvmMatch s t b := by
  rw [thvmMatchArgs]
  by_cases hok : (thvmMatch s t b).1 = true
  · simp only [hok, if_true, thvmMatchArgs]
    exact Prod.ext hok.symm rfl
  · simp only [hok, Bool.false_eq_true, if_false]
    exact Prod.ext (Bool.eq_false_iff.mpr hok).symm rfl

/-- The walk does on cells what the matcher does on the terms that are left. -/
theorem ftMatchLoop_spec {pc sc : Option Addr} {restp rests : List Addr} {s₀ : AtpFtSubst}
    (hlen : ps.length = ts.length) (hp : Encodings m U pc ps restp)
    (ht : Encodings m U sc ts rests) (hcorr : Corresponds m U out.bind b)
    (hext : Extends s₀ out) : ∃ out',
      (∀ n rounds, (ps.map TermTree.size).sum < n → BoundBelow rounds b →
        (∀ t ∈ ts, (cellTree t).size < rounds) →
        ftMatchLoop m rounds s₀.wm restp.head? n pc sc out =
          some ((thvmMatchArgs ps ts b).1, out')) ∧
      ((thvmMatchArgs ps ts b).1 = true → Corresponds m U out'.bind (thvmMatchArgs ps ts b).2) ∧
      ((thvmMatchArgs ps ts b).1 = false → out' = s₀) := by
  induction ps using TermTree.forest_induct generalizing ts pc sc out b with
  | nil =>
    obtain rfl := List.length_eq_zero_iff.mp hlen.symm
    refine ⟨out, fun n rounds hn _ _ => ?_, fun _ => hcorr, fun h => nomatch h⟩
    obtain ⟨n, rfl⟩ := Nat.exists_eq_succ_of_ne_zero (Nat.ne_of_gt hn)
    cases sc <;> rw [ftMatchLoop, if_pos hp.nil] <;> rfl
  | leaf l ps ih =>
    cases ts with
    | nil => cases hlen
    | cons t ts =>
      cases l with
      | num d v => exact absurd (by simp) ((hp.plain _ List.mem_cons_self).numberFree d v)
      | fvr id =>
        have hexit := hp.cons
        obtain ⟨p, c, rfl, hc, hvar, hsym, hid, hrest⟩ := hp.fvr
        obtain ⟨x, o', rfl, hx, hbehind, htrest⟩ := ht.skip
        have hloop : ∀ n rounds, ftMatchLoop m rounds s₀.wm restp.head? (n + 1) (some p) (some x)
            out = (ftMatchVar m rounds id x out).bind fun r =>
              r.elim (some (false, out.rewind s₀.wm)) fun out =>
                ftMatchLoop m rounds s₀.wm restp.head? n c.next o' out := by
          intro n rounds
          rw [ftMatchLoop, if_neg hexit]
          simp only [Option.bind_eq_bind, Option.bind_some, hc, if_pos hvar, hsym, hbehind]
          congr 1
          funext r
          cases r <;> rfl
        rcases ftMatchVar_spec hcorr hext hid hx with
          ⟨b', out', hmatch, hcorr', hext', hrun⟩ | ⟨hmatch, hrun⟩
        · have hargs : thvmMatchArgs (.leaf (.fvr id) :: ps) (t :: ts) b =
              thvmMatchArgs ps ts b' := by
            rw [thvmMatchArgs, show thvmMatch (.leaf (.fvr id)) t b = (true, b') from hmatch]
            rfl
          obtain ⟨last, hlast, hout⟩ := ih (Nat.succ.inj hlen) hrest htrest hcorr' hext'
          rw [hargs]
          refine ⟨last, fun n rounds hn hbelow hsize => ?_, hout⟩
          rw [List.map_cons, List.sum_cons, TermTree.size_leaf] at hn
          obtain ⟨n, rfl⟩ := Nat.exists_eq_succ_of_ne_zero (Nat.ne_zero_of_lt hn)
          obtain ⟨hvar', hbelow'⟩ := hrun rounds hbelow (hsize t List.mem_cons_self)
          rw [hloop, hvar', Option.bind_some, Option.elim_some]
          exact hlast n rounds (by omega) hbelow' fun u hu => hsize u (List.mem_cons_of_mem t hu)
        · have hargs : (thvmMatchArgs (.leaf (.fvr id) :: ps) (t :: ts) b).1 = false := by
            rw [thvmMatchArgs]
            simp only [show (thvmMatch (.leaf (.fvr id)) t b).1 = false from hmatch,
              Bool.false_eq_true, if_false]
          rw [hargs]
          refine ⟨_, fun n rounds hn hbelow _ => ?_, fun h => (nomatch h), fun _ => hext.2⟩
          obtain ⟨n, rfl⟩ := Nat.exists_eq_succ_of_ne_zero (Nat.ne_zero_of_lt hn)
          rw [hloop, hrun rounds hbelow, Option.bind_some, Option.elim_none]
  | node f args ps _ ih =>
    cases ts with
    | nil => cases hlen
    | cons t ts =>
      have hexit := hp.cons
      obtain ⟨p, c, rfl, hc, hvar, hsym, harity, hrest⟩ := hp.ctr
      have hplain := ht.plain _ List.mem_cons_self
      cases t with
      | leaf l =>
        cases l with
        | num d v => exact absurd (by simp) (hplain.numberFree d v)
        | fvr id =>
          obtain ⟨q, d, rfl, hd, hvar', -⟩ := ht.fvr
          refine ⟨_, fun n rounds hn _ _ => ?_, fun h => (nomatch h), fun _ => hext.2⟩
          obtain ⟨n, rfl⟩ := Nat.exists_eq_succ_of_ne_zero (Nat.ne_zero_of_lt hn)
          rw [ftMatchLoop, if_neg hexit]
          simp only [Option.bind_eq_bind, Option.bind_some, hc, hvar, Bool.false_eq_true, if_false,
            hd, hvar', true_or, if_true]
          rfl
      | node g bs =>
        obtain ⟨q, d, rfl, hd, hvar', hsym', harity', htrest⟩ := ht.ctr
        have hloop : ∀ n rounds, ftMatchLoop m rounds s₀.wm restp.head? (n + 1) (some p) (some q)
            out = if f ≠ g ∨ args.length ≠ bs.length then some (false, out.rewind s₀.wm)
              else ftMatchLoop m rounds s₀.wm restp.head? n c.next d.next out := by
          intro n rounds
          rw [ftMatchLoop, if_neg hexit]
          simp only [Option.bind_eq_bind, Option.bind_some, hc, hvar, Bool.false_eq_true, if_false,
            hd, hvar', false_or, hsym, hsym', harity, harity']
        by_cases heq : f = g ∧ args.length = bs.length
        · obtain ⟨rfl, hargs⟩ := heq
          have hlens : (args ++ ps).length = (bs ++ ts).length := by
            rw [List.length_append, List.length_append, hargs, Nat.succ.inj hlen]
          rw [thvmMatchArgs_node hargs]
          obtain ⟨last, hlast, hout⟩ := ih hlens hrest htrest hcorr hext
          refine ⟨last, fun n rounds hn hbelow hsize => ?_, hout⟩
          rw [List.map_cons, List.sum_cons, TermTree.size_node] at hn
          obtain ⟨n, rfl⟩ := Nat.exists_eq_succ_of_ne_zero (Nat.ne_zero_of_lt hn)
          rw [hloop, if_neg (by simp [hargs])]
          refine hlast n rounds ?_ hbelow fun u hu => ?_
          · rw [List.map_append, List.sum_append]
            omega
          · rcases List.mem_append.mp hu with hu | hu
            · have hnode := hsize _ List.mem_cons_self
              rw [cellTree_ctr hplain] at hnode
              exact (TermTree.size_lt f (List.mem_map_of_mem hu)).trans hnode
            · exact hsize u (List.mem_cons_of_mem _ hu)
        · have hargs : (thvmMatchArgs (.node f args :: ps) (.node g bs :: ts) b).1 = false := by
            rw [thvmMatchArgs, thvmMatch]
            by_cases hfg : f = g
            · have hne : args.length ≠ bs.length := fun h => heq ⟨hfg, h⟩
              simp [hfg, hne]
            · simp [hfg]
          rw [hargs]
          refine ⟨_, fun n rounds hn _ _ => ?_, fun h => (nomatch h), fun _ => hext.2⟩
          obtain ⟨n, rfl⟩ := Nat.exists_eq_succ_of_ne_zero (Nat.ne_zero_of_lt hn)
          rw [hloop, if_pos (by rwa [ne_eq, ne_eq, ← not_and_or])]

/-- The flat matcher of these cells does what the matcher of terms does. -/
structure MatchAgrees (m : FtMemory) (U : Set Addr) (p q : Addr) (pat t : FTerm)
    (s : AtpFtSubst) (b : ℕ → Option FTerm) (s' : AtpFtSubst) : Prop where
  returns : Settles (fun n => ftMatch m n p q s) ((thvmMatch pat t b).1, s')
  success : (thvmMatch pat t b).1 = true → Corresponds m U s'.bind (thvmMatch pat t b).2
  failure : (thvmMatch pat t b).1 = false → s' = s

theorem ftMatch_agrees (hp : Encodes m U p s) (hq : Encodes m U q t)
    (hcorr : Corresponds m U out.bind b) : ∃ out', MatchAgrees m U p q s t out b out' := by
  obtain ⟨N, hN⟩ := exists_boundBelow hcorr
  obtain ⟨restp, hp'⟩ := hp.standing
  obtain ⟨restq, hq'⟩ := hq.standing
  have hpat : Encodings m U (some p) [s] restp := ⟨hp', by simpa using hp.plain⟩
  have hsubj : Encodings m U (some q) [t] restq := ⟨hq', by simpa using hq.plain⟩
  obtain ⟨_, o', ho, -, hbehind, hnil⟩ := hpat.skip
  cases ho
  have hlen : [s].length = [t].length := rfl
  obtain ⟨out', hrun, hout⟩ := ftMatchLoop_spec hlen hpat hsubj hcorr (.refl out)
  rw [thvmMatchArgs_single] at hrun hout
  refine ⟨out', ⟨N + (cellTree t).size + s.size + 1, fun n hn => ?_⟩, hout.1, hout.2⟩
  change ftMatch m n p q out = _
  rw [ftMatch, hbehind, Option.bind_eq_bind, Option.bind_some, hnil.nil]
  refine hrun n n (by simp; omega) (fun id u hu => ?_) fun u hu => ?_
  · have := hN id u hu
    omega
  · rw [List.mem_singleton.mp hu]
    omega

end Thvm.Ft
