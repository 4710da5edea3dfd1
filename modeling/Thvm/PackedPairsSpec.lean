import Thvm.PackedPairs

/-!
# Round trips of packed critical pairs

What the writer puts down for a term is the list of the records of its nodes. The readers
take these records one by one. The unpacker and the skipper read at most
`REWRITE_MAX_ARITY` arguments of a constructor, and nobody reads a placeholder as one, so
that a pair comes back exactly when it has neither and fits in the scratch buffer.
-/

namespace Thvm

namespace Acp

/-! ## Varints -/

theorem continues (v : ℕ) : UInt8.ofNat (v ||| 0x80) &&& 0x80 ≠ 0 := by
  intro h
  have hnat : (v ||| 2 ^ 7) % 2 ^ 8 &&& 2 ^ 7 = 0 := by
    have := congrArg UInt8.toNat h
    rwa [UInt8.toNat_and, UInt8.toNat_ofNat'] at this
  have hbit : ((v ||| 2 ^ 7) % 2 ^ 8 &&& 2 ^ 7).testBit 7 = true := by
    rw [Nat.testBit_and, Nat.testBit_mod_two_pow, Nat.testBit_or, Nat.testBit_two_pow_self]
    simp
  rw [hnat, Nat.zero_testBit] at hbit
  cases hbit

theorem stops {v : ℕ} (h : v < 0x80) : UInt8.ofNat v &&& 0x80 = 0 := by
  apply UInt8.toNat_inj.mp
  rw [UInt8.toNat_and, UInt8.toNat_ofNat', Nat.mod_eq_of_lt (by omega : v < 2 ^ 8)]
  apply Nat.eq_of_testBit_eq
  intro i
  have hbit : v.testBit 7 = false := Nat.testBit_lt_two_pow h
  change (v &&& 2 ^ 7).testBit i = (0 : ℕ).testBit i
  rw [Nat.testBit_and, Nat.testBit_two_pow, Nat.zero_testBit]
  by_cases hi : 7 = i
  · rw [← hi, hbit, Bool.false_and]
  · simp [hi]

/-- The seven bits of a byte of the varint. -/
theorem payload (v : ℕ) : (UInt8.ofNat (v ||| 0x80) &&& 0x7F).toNat = v % 128 := by
  have hlow : (v ||| 0x80) % 128 = v % 128 := by
    have hor := Nat.or_mod_two_pow (a := v) (b := 0x80) (n := 7)
    simpa using hor
  rw [UInt8.toNat_and, UInt8.toNat_ofNat']
  refine (Nat.and_two_pow_sub_one_eq_mod _ 7).trans ?_
  omega

theorem payload_last {v : ℕ} (h : v < 0x80) : (UInt8.ofNat v &&& 0x7F).toNat = v := by
  rw [UInt8.toNat_and, UInt8.toNat_ofNat']
  refine (Nat.and_two_pow_sub_one_eq_mod _ 7).trans ?_
  omega

/-- A number is its low seven bits and the others. -/
theorem low_or_high (v shift : ℕ) :
    (v % 128) <<< shift ||| (v >>> 7) <<< (shift + 7) = v <<< shift := by
  apply Nat.eq_of_testBit_eq
  intro i
  rw [Nat.testBit_or, Nat.testBit_shiftLeft, Nat.testBit_shiftLeft, Nat.testBit_shiftLeft,
    Nat.testBit_shiftRight, show (128 : ℕ) = 2 ^ 7 from rfl, Nat.testBit_mod_two_pow]
  by_cases hlow : i - shift < 7
  · have hhigh : ¬ (shift + 7 ≤ i) := by omega
    simp [hlow, hhigh]
  · have hhigh : shift + 7 ≤ i := by omega
    have hi : 7 + (i - (shift + 7)) = i - shift := by omega
    have hshift : shift ≤ i := by omega
    simp [hlow, hhigh, hi, hshift]

theorem acpPutVarint_of_lt {v : ℕ} (h : v < 0x80) : acpPutVarint v = [UInt8.ofNat v] := by
  rw [acpPutVarint, if_pos h]

theorem acpPutVarint_of_ge {v : ℕ} (h : ¬ v < 0x80) :
    acpPutVarint v = UInt8.ofNat (v ||| 0x80) :: acpPutVarint (v >>> 7) := by
  rw [acpPutVarint, if_neg h]

theorem takes_getVarintFrom (w shift : ℕ) : ∀ v,
    (getVarintFrom v shift).Takes (acpPutVarint w) (v ||| (w <<< shift) % 2 ^ 64) := by
  induction w using Nat.strongRecOn generalizing shift with
  | ind w ih =>
    intro v rest
    by_cases hw : w < 0x80
    · rw [acpPutVarint_of_lt hw, List.singleton_append, getVarintFrom, if_pos (stops hw),
        payload_last hw]
    · have hless : w >>> 7 < w := by
        rw [Nat.shiftRight_eq_div_pow]
        omega
      rw [acpPutVarint_of_ge hw, List.cons_append, getVarintFrom, if_neg (continues w), payload,
        ih _ hless, Nat.or_assoc, ← Nat.or_mod_two_pow, low_or_high]

theorem takes_acpGetVarint {v : ℕ} (h : v < 2 ^ 64) : acpGetVarint.Takes (acpPutVarint v) v := by
  have hfrom := takes_getVarintFrom v 0 0
  rwa [Nat.shiftLeft_zero, Nat.zero_or, Nat.mod_eq_of_lt h] at hfrom

theorem takes_getU32 {v : ℕ} (h : v < 2 ^ 32) : getU32.Takes (acpPutVarint v) v := by
  have hmap := (takes_acpGetVarint (by omega : v < 2 ^ 64)).map (· % 2 ^ 32)
  rwa [Nat.mod_eq_of_lt h] at hmap

theorem takes_getArity {n : ℕ} (h : n ≤ rewriteMaxArity) : getArity.Takes (acpPutVarint n) n := by
  have hlt : n < 2 ^ 32 := Nat.lt_of_le_of_lt h (by decide)
  have hmap := (takes_getU32 hlt).map fun n => if n > rewriteMaxArity then rewriteMaxArity else n
  rwa [if_neg (Nat.not_lt.mpr h)] at hmap

theorem length_acpPutVarint_le (k : ℕ) :
    ∀ v < 2 ^ (7 * (k + 1)), (acpPutVarint v).length ≤ k + 1 := by
  induction k with
  | zero =>
    intro v hv
    rw [acpPutVarint_of_lt hv]
    exact Nat.le_refl 1
  | succ k ih =>
    intro v hv
    by_cases hw : v < 0x80
    · rw [acpPutVarint_of_lt hw]
      simp
    · rw [acpPutVarint_of_ge hw, List.length_cons]
      refine Nat.succ_le_succ (ih _ ?_)
      rw [Nat.shiftRight_eq_div_pow, Nat.div_lt_iff_lt_mul (by decide), ← Nat.pow_add]
      exact hv

/-! ## Records -/

mutual

/-- The records of a term in preorder. -/
def records : CpTerm → List (List UInt8)
  | .leaf l => [atomRecord l]
  | .node f args => nodeRecord f args.length :: recordsArgs args

def recordsArgs : List CpTerm → List (List UInt8)
  | [] => []
  | a :: as => records a ++ recordsArgs as

end

/-- The bytes of a term. -/
def packing (t : CpTerm) : List UInt8 := (records t).flatten

theorem recordsArgs_eq (args : List CpTerm) : recordsArgs args = args.flatMap records := by
  induction args with
  | nil => rfl
  | cons a as ih => rw [recordsArgs, ih, List.flatMap_cons]

theorem packing_leaf (l : Atom) : packing (.leaf l) = atomRecord l := List.append_nil _

theorem packing_node (f : BitVec 18) (args : List CpTerm) :
    packing (.node f args) = nodeRecord f args.length ++ args.flatMap packing := by
  rw [packing, records, List.flatten_cons, recordsArgs_eq, List.flatMap, List.flatten_flatten,
    List.map_map]
  rfl

theorem length_atomRecord (l : Atom) :
    0 < (atomRecord l).length ∧ (atomRecord l).length ≤ 21 := by
  cases l with
  | fvr id =>
    have hid := length_acpPutVarint_le 2 id.toNat (Nat.lt_trans id.isLt (by decide))
    simp only [atomRecord, List.length_cons]
    omega
  | num dtype val =>
    have hdtype := length_acpPutVarint_le 2 dtype.toNat (Nat.lt_trans dtype.isLt (by decide))
    have hval := length_acpPutVarint_le 5 val.toNat (Nat.lt_trans val.isLt (by decide))
    simp only [atomRecord, List.length_cons, List.length_append]
    omega
  | other w => exact ⟨Nat.one_pos, by simp [atomRecord]⟩

theorem length_nodeRecord (f : BitVec 18) (n : ℕ) :
    0 < (nodeRecord f n).length ∧ (nodeRecord f n).length ≤ 21 := by
  have hf := length_acpPutVarint_le 2 f.toNat (Nat.lt_trans f.isLt (by decide))
  have hn := length_acpPutVarint_le 4 (n % 2 ^ 32)
    (Nat.lt_trans (Nat.mod_lt _ (Nat.two_pow_pos 32)) (by decide))
  simp only [nodeRecord, List.length_cons, List.length_append]
  omega

theorem length_record (t : CpTerm) :
    ∀ record ∈ records t, 0 < record.length ∧ record.length ≤ 21 := by
  induction t using TermTree.induct with
  | leaf l =>
    intro record hrecord
    obtain rfl := List.mem_singleton.mp hrecord
    exact length_atomRecord l
  | node f args ih =>
    intro record hrecord
    rw [records, recordsArgs_eq] at hrecord
    rcases List.mem_cons.mp hrecord with rfl | hrecord
    · exact length_nodeRecord f args.length
    · obtain ⟨a, ha, hrecord⟩ := List.mem_flatMap.mp hrecord
      exact ih a ha record hrecord

/-- Every node has a record of at least a byte. -/
theorem size_le_length_packing (t : CpTerm) : t.size ≤ (packing t).length := by
  induction t using TermTree.induct with
  | leaf l =>
    rw [packing_leaf]
    exact (length_atomRecord l).1
  | node f args ih =>
    rw [packing_node, TermTree.size_node, List.length_append, List.length_flatMap]
    exact Nat.add_le_add (length_nodeRecord f args.length).1 (List.sum_le_sum ih)

/-! ## Room in the scratch buffer -/

/-- What doubling has reached after the first time that there is room. -/
theorem growCap_eq_some {need rounds cap cap' : ℕ} (h : growCap need rounds cap = some cap')
    (hcap : cap = 0 ∨ ∃ k < 20, cap = 2 ^ (12 + k)) :
    need ≤ cap' ∧ (cap' = 0 ∨ ∃ k < 20, cap' = 2 ^ (12 + k)) := by
  induction rounds generalizing cap with
  | zero => cases h
  | succ rounds ih =>
    rw [growCap] at h
    split at h
    · refine ih h ?_
      rcases hcap with rfl | ⟨k, hk, rfl⟩
      · exact .inl rfl
      · rcases Nat.lt_or_ge (k + 1) 20 with hk' | hk'
        · refine .inr ⟨k + 1, hk', ?_⟩
          have hlt : (2 : ℕ) ^ (12 + k + 1) < 2 ^ 32 := Nat.pow_lt_pow_right (by decide) (by omega)
          rw [← Nat.pow_succ, Nat.mod_eq_of_lt hlt]
          rfl
        · obtain rfl : k = 19 := by omega
          exact .inl rfl
    · obtain rfl := Option.some.inj h
      exact ⟨by omega, hcap⟩

/-- Doubling reaches `2 ^ 31` in the end. -/
theorem exists_growCap {need : ℕ} (hneed : need ≤ 2 ^ 31) (rounds k : ℕ) (hk : k < 20)
    (hrounds : 20 ≤ rounds + k) : ∃ cap', growCap need rounds (2 ^ (12 + k)) = some cap' := by
  induction rounds generalizing k with
  | zero => omega
  | succ rounds ih =>
    rw [growCap]
    split
    · rcases Nat.lt_or_ge (k + 1) 20 with hk' | hk'
      · have hlt : (2 : ℕ) ^ (12 + k + 1) < 2 ^ 32 := Nat.pow_lt_pow_right (by decide) (by omega)
        rw [← Nat.pow_succ, Nat.mod_eq_of_lt hlt]
        exact ih (k + 1) hk' (by omega)
      · obtain rfl : k = 19 := by omega
        omega
    · exact ⟨_, rfl⟩

theorem le_of_cap {cap : ℕ} (h : cap = 0 ∨ ∃ k < 20, cap = 2 ^ (12 + k)) : cap ≤ 2 ^ 31 := by
  rcases h with rfl | ⟨k, hk, rfl⟩
  · exact Nat.zero_le _
  · exact Nat.pow_le_pow_right (by decide) (by omega)

/-- There is room for a record only below `2 ^ 31`, past which the doubling wraps to 0. -/
theorem acpScratchEnsure_eq_some {rounds pos cap cap' : ℕ} (hpos : pos ≤ 2 ^ 31)
    (hcap : cap = 0 ∨ ∃ k < 20, cap = 2 ^ (12 + k))
    (h : acpScratchEnsure rounds pos 21 cap = some cap') :
    pos + 21 ≤ 2 ^ 31 ∧ (cap' = 0 ∨ ∃ k < 20, cap' = 2 ^ (12 + k)) := by
  have hmod : (pos + 21) % 2 ^ 32 = pos + 21 := Nat.mod_eq_of_lt (by omega)
  rw [acpScratchEnsure, hmod] at h
  split at h
  · obtain rfl := Option.some.inj h
    exact ⟨Nat.le_trans ‹_› (le_of_cap hcap), hcap⟩
  · have hstart : (if cap ≠ 0 then cap else 4096) = 0 ∨
        ∃ k < 20, (if cap ≠ 0 then cap else 4096) = 2 ^ (12 + k) := by
      rcases hcap with rfl | hcap
      · exact .inr ⟨0, by decide, rfl⟩
      · obtain ⟨k, hk, rfl⟩ := hcap
        exact .inr ⟨k, hk, if_pos (Nat.two_pow_pos _).ne'⟩
    obtain ⟨hneed, hcap'⟩ := growCap_eq_some h hstart
    exact ⟨Nat.le_trans hneed (le_of_cap hcap'), hcap'⟩

theorem exists_acpScratchEnsure {rounds pos cap : ℕ} (hrounds : 20 ≤ rounds)
    (hpos : pos + 21 ≤ 2 ^ 31) (hcap : cap = 0 ∨ ∃ k < 20, cap = 2 ^ (12 + k)) :
    ∃ cap', acpScratchEnsure rounds pos 21 cap = some cap' := by
  have hmod : (pos + 21) % 2 ^ 32 = pos + 21 := Nat.mod_eq_of_lt (by omega)
  rw [acpScratchEnsure, hmod]
  split
  · exact ⟨cap, rfl⟩
  · rcases hcap with rfl | ⟨k, hk, rfl⟩
    · exact exists_growCap hpos rounds 0 (by decide) (by omega)
    · rw [if_pos (Nat.two_pow_pos _).ne']
      exact exists_growCap hpos rounds k hk (by omega)

/-- The records one after the other from position `pos` on: each one starts where there is
room for 21 bytes. -/
def Fits : ℕ → List (List UInt8) → Prop
  | _, [] => True
  | pos, record :: rest => pos + 21 ≤ 2 ^ 31 ∧ Fits (pos + record.length) rest

theorem fits_append {pos : ℕ} {rs rs' : List (List UInt8)} :
    Fits pos (rs ++ rs') ↔ Fits pos rs ∧ Fits (pos + rs.flatten.length) rs' := by
  induction rs generalizing pos with
  | nil => simp [Fits]
  | cons record rs ih =>
    rw [List.cons_append, Fits, Fits, ih, List.flatten_cons, List.length_append, Nat.add_assoc,
      and_assoc]

/-! ## The writer puts the records down -/

theorem acpPackTerm_eq (rounds : ℕ) (t : CpTerm) (s : Scratch) :
    acpPackTerm rounds t s = (records t).foldlM (fun s record => putRecord rounds record s) s := by
  induction t using TermTree.induct generalizing s with
  | leaf l =>
    rw [acpPackTerm, records]
    cases hput : putRecord rounds (atomRecord l) s with
    | none => simp [List.foldlM, hput]
    | some s' => simp [List.foldlM, hput]
  | node f args ih =>
    have hargs : ∀ s, acpPackArgs rounds args s =
        (recordsArgs args).foldlM (fun s record => putRecord rounds record s) s := by
      clear s
      induction args with
      | nil => exact fun s => rfl
      | cons a as ihas =>
        intro s
        have htail := ihas fun b hb => ih b (List.mem_cons_of_mem _ hb)
        rw [acpPackArgs, recordsArgs, List.foldlM_append, ih a List.mem_cons_self]
        simp only [htail]
    rw [acpPackTerm, records, List.foldlM_cons]
    simp only [hargs]

variable {rounds : ℕ} {rs : List (List UInt8)} {s s' : Scratch}

/-- What the capacity of the scratch buffer can be. -/
def CapOk (s : Scratch) : Prop := s.cap = 0 ∨ ∃ k < 20, s.cap = 2 ^ (12 + k)

theorem putRecord_spec {record : List UInt8} (hlen : record.length ≤ 21) (hcap : CapOk s)
    (hpos : s.bytes.length ≤ 2 ^ 31) (h : putRecord rounds record s = some s') :
    s.bytes.length + 21 ≤ 2 ^ 31 ∧ s'.bytes = s.bytes ++ record ∧ CapOk s' ∧
      s'.bytes.length ≤ 2 ^ 31 := by
  rw [putRecord, Option.map_eq_some_iff] at h
  obtain ⟨cap, hensure, rfl⟩ := h
  obtain ⟨hroom, hcap'⟩ := acpScratchEnsure_eq_some hpos hcap hensure
  refine ⟨hroom, rfl, hcap', ?_⟩
  rw [List.length_append]
  omega

theorem putRecords_spec (hlen : ∀ record ∈ rs, record.length ≤ 21) (hcap : CapOk s)
    (hpos : s.bytes.length ≤ 2 ^ 31)
    (h : rs.foldlM (fun s record => putRecord rounds record s) s = some s') :
    Fits s.bytes.length rs ∧ s'.bytes = s.bytes ++ rs.flatten ∧ CapOk s' ∧
      s'.bytes.length ≤ 2 ^ 31 := by
  induction rs generalizing s with
  | nil =>
    obtain rfl := Option.some.inj h
    exact ⟨trivial, (List.append_nil _).symm, hcap, hpos⟩
  | cons record rs ih =>
    rw [List.foldlM_cons] at h
    obtain ⟨s₁, hput, hrest⟩ := Option.bind_eq_some_iff.mp h
    obtain ⟨hroom, hbytes, hcap₁, hpos₁⟩ :=
      putRecord_spec (hlen record List.mem_cons_self) hcap hpos hput
    obtain ⟨hfits, hbytes', hcap', hpos'⟩ :=
      ih (fun r hr => hlen r (List.mem_cons_of_mem _ hr)) hcap₁ hpos₁ hrest
    rw [hbytes, List.length_append] at hfits
    refine ⟨⟨hroom, hfits⟩, ?_, hcap', hpos'⟩
    rw [hbytes', hbytes, List.flatten_cons, List.append_assoc]

theorem exists_putRecords (hrounds : 20 ≤ rounds) (hlen : ∀ record ∈ rs, record.length ≤ 21)
    (hcap : CapOk s) (hpos : s.bytes.length ≤ 2 ^ 31) (hfits : Fits s.bytes.length rs) :
    ∃ s', rs.foldlM (fun s record => putRecord rounds record s) s = some s' := by
  induction rs generalizing s with
  | nil => exact ⟨s, rfl⟩
  | cons record rs ih =>
    obtain ⟨cap, hensure⟩ := exists_acpScratchEnsure hrounds hfits.1 hcap
    have hput : putRecord rounds record s =
        some ⟨s.bytes ++ record, cap, (s.nodes + 1) % 2 ^ 32⟩ := by
      rw [putRecord, hensure, Option.map_some]
    obtain ⟨hroom, hbytes, hcap₁, hpos₁⟩ :=
      putRecord_spec (hlen record List.mem_cons_self) hcap hpos hput
    have hfits₁ := hfits.2
    rw [← List.length_append, ← hbytes] at hfits₁
    obtain ⟨s', hrest⟩ := ih (fun r hr => hlen r (List.mem_cons_of_mem _ hr)) hcap₁ hpos₁ hfits₁
    refine ⟨s', ?_⟩
    rw [List.foldlM_cons, hput]
    exact hrest

/-- What `acp_pack` returns, if it does. -/
theorem acpPack_spec {l r : CpTerm} {cap : ScratchCap} {p : Packed}
    (h : acpPack rounds cap l r = some p) :
    Fits 0 (records l ++ records r) ∧ p.bytes = packing l ++ packing r ∧
      p.lhsLen = (packing l).length := by
  obtain ⟨s₁, hl, h⟩ := Option.bind_eq_some_iff.mp h
  obtain ⟨s₂, hr, h⟩ := Option.bind_eq_some_iff.mp h
  obtain rfl := Option.some.inj h
  rw [acpPackTerm_eq] at hl hr
  obtain ⟨hfitsl, hbytesl, hcapl, hposl⟩ := putRecords_spec (s := ⟨[], cap, 0⟩)
    (fun record hrecord => (length_record l record hrecord).2) cap.2 (Nat.zero_le _) hl
  obtain ⟨hfitsr, hbytesr, hcapr, hposr⟩ := putRecords_spec
    (fun record hrecord => (length_record r record hrecord).2) hcapl hposl hr
  rw [List.nil_append] at hbytesl
  rw [hbytesl] at hbytesr hfitsr
  refine ⟨fits_append.mpr ⟨hfitsl, ?_⟩, hbytesr, congrArg List.length hbytesl⟩
  rwa [Nat.zero_add]

theorem exists_acpPack {l r : CpTerm} (hrounds : 20 ≤ rounds) (cap : ScratchCap)
    (h : Fits 0 (records l ++ records r)) : ∃ p, acpPack rounds cap l r = some p := by
  obtain ⟨hfitsl, hfitsr⟩ := fits_append.mp h
  have hlenl := fun record hrecord => (length_record l record hrecord).2
  have hlenr := fun record hrecord => (length_record r record hrecord).2
  obtain ⟨s₁, hl⟩ := exists_putRecords (s := ⟨[], cap, 0⟩) hrounds hlenl cap.2 (Nat.zero_le _)
    hfitsl
  obtain ⟨_, hbytesl, hcapl, hposl⟩ :=
    putRecords_spec (s := ⟨[], cap, 0⟩) hlenl cap.2 (Nat.zero_le _) hl
  have hpos₁ : s₁.bytes.length = 0 + (records l).flatten.length := by
    rw [hbytesl, List.nil_append, Nat.zero_add]
  rw [← hpos₁] at hfitsr
  obtain ⟨s₂, hr⟩ := exists_putRecords hrounds hlenr hcapl hposl hfitsr
  rw [← acpPackTerm_eq] at hl hr
  refine ⟨⟨s₂.bytes, s₁.bytes.length, s₂.nodes, s₁.nodes⟩, ?_⟩
  rw [acpPack, hl]
  change (acpPackTerm rounds r s₁).bind _ = _
  rw [hr]
  rfl

/-! ## The readers take the records -/

/-- At most `REWRITE_MAX_ARITY` arguments everywhere, and no placeholder. -/
structure Carried (t : CpTerm) : Prop where
  every : t.Every fun _ n => n ≤ rewriteMaxArity
  leaves : ∀ l ∈ t.leaves, ∀ w, l ≠ .other w

namespace Carried

variable {f : BitVec 18} {args : List CpTerm}

theorem arg (h : Carried (.node f args)) {a : CpTerm} (ha : a ∈ args) : Carried a where
  every := (TermTree.every_node.mp h.every).2 a ha
  leaves l hl := h.leaves l (TermTree.mem_leaves_node.mpr ⟨a, ha, hl⟩)

theorem arity (h : Carried (.node f args)) : args.length ≤ rewriteMaxArity :=
  (TermTree.every_node.mp h.every).1

theorem node (hlen : args.length ≤ rewriteMaxArity) (hargs : ∀ a ∈ args, Carried a) :
    Carried (.node f args) where
  every := .node hlen fun a ha => (hargs a ha).every
  leaves l hl := by
    obtain ⟨a, ha, hla⟩ := TermTree.mem_leaves_node.mp hl
    exact (hargs a ha).leaves l hla

theorem leaf {l : Atom} (h : ∀ w, l ≠ .other w) : Carried (.leaf l) where
  every := .leaf l
  leaves l' hl' := by
    obtain rfl := List.mem_singleton.mp hl'
    exact h

end Carried

theorem mod_arity {n : ℕ} (h : n ≤ rewriteMaxArity) : n % 2 ^ 32 = n :=
  Nat.mod_eq_of_lt (Nat.lt_of_le_of_lt h (by decide))

/-- A letter, then what the case of the letter takes. -/
theorem takes_case {α : Type} {next : UInt8 → Reader α} {disc : UInt8} {bs : List UInt8} {a : α}
    (h : (next disc).Takes bs a) : (Reader.byte.bind next).Takes (disc :: bs) a :=
  (Reader.takes_byte disc).bind h

theorem takes_unpackTerm {t : CpTerm} (h : Carried t) :
    ∀ depth, t.size ≤ depth → (unpackTerm depth).Takes (packing t) t := by
  induction t using TermTree.induct with
  | leaf l =>
    intro depth hdepth
    obtain ⟨depth, rfl⟩ : ∃ d, depth = d + 1 := ⟨depth - 1, by simp at hdepth; omega⟩
    rw [packing_leaf, unpackTerm]
    cases l with
    | fvr id =>
      have hid := takes_getU32 (Nat.lt_trans id.isLt (by decide : 2 ^ 18 < 2 ^ 32))
      have hread := hid.map fun id => (.leaf (.fvr (BitVec.ofNat 18 id)) : CpTerm)
      rw [BitVec.ofNat_toNat, BitVec.setWidth_eq] at hread
      exact takes_case hread
    | num dtype val =>
      have hdtype := takes_getU32 (Nat.lt_trans dtype.isLt (by decide : 2 ^ 18 < 2 ^ 32))
      have hval := takes_acpGetVarint (Nat.lt_trans val.isLt (by decide : 2 ^ 38 < 2 ^ 64))
      refine takes_case (hdtype.bind ?_)
      rw [BitVec.ofNat_toNat, BitVec.setWidth_eq]
      have hread := hval.map fun val => (.leaf (.num dtype (BitVec.ofNat 38 val)) : CpTerm)
      rwa [BitVec.ofNat_toNat, BitVec.setWidth_eq] at hread
    | other w => exact absurd rfl (h.leaves (.other w) (List.mem_singleton_self _) w)
  | node f args ih =>
    intro depth hdepth
    obtain ⟨depth, rfl⟩ : ∃ d, depth = d + 1 :=
      ⟨depth - 1, by have := TermTree.size_pos (.node f args : CpTerm); omega⟩
    rw [packing_node, nodeRecord, mod_arity h.arity, unpackTerm, List.cons_append,
      List.append_assoc]
    have hlabel := takes_getU32 (Nat.lt_trans f.isLt (by decide : 2 ^ 18 < 2 ^ 32))
    have hargs : ∀ a ∈ args, (unpackTerm depth).Takes (packing a) (id a) := by
      intro a ha
      have hlt := TermTree.size_lt f ha
      exact ih a ha (h.arg ha) depth (by omega)
    have hmany := Reader.Takes.many hargs
    rw [List.map_id] at hmany
    refine takes_case (hlabel.bind ((takes_getArity h.arity).bind ?_))
    rw [BitVec.ofNat_toNat, BitVec.setWidth_eq]
    exact hmany.map (TermTree.node f)

theorem takes_termNodesSkip {t : CpTerm} (h : Carried t) (hsize : t.size < 2 ^ 32) :
    ∀ depth, t.size ≤ depth → (termNodesSkip depth).Takes (packing t) t.size := by
  induction t using TermTree.induct with
  | leaf l =>
    intro depth hdepth
    obtain ⟨depth, rfl⟩ : ∃ d, depth = d + 1 := ⟨depth - 1, by simp at hdepth; omega⟩
    rw [packing_leaf, termNodesSkip]
    cases l with
    | fvr id =>
      have hid := takes_acpGetVarint (Nat.lt_trans id.isLt (by decide : 2 ^ 18 < 2 ^ 64))
      exact takes_case (hid.map fun _ => 1)
    | num dtype val =>
      have hdtype := takes_acpGetVarint (Nat.lt_trans dtype.isLt (by decide : 2 ^ 18 < 2 ^ 64))
      have hval := takes_acpGetVarint (Nat.lt_trans val.isLt (by decide : 2 ^ 38 < 2 ^ 64))
      exact takes_case (hdtype.bind (hval.map fun _ => 1))
    | other w => exact absurd rfl (h.leaves (.other w) (List.mem_singleton_self _) w)
  | node f args ih =>
    intro depth hdepth
    obtain ⟨depth, rfl⟩ : ∃ d, depth = d + 1 :=
      ⟨depth - 1, by have := TermTree.size_pos (.node f args : CpTerm); omega⟩
    rw [packing_node, nodeRecord, mod_arity h.arity, termNodesSkip, List.cons_append,
      List.append_assoc]
    have hlabel := takes_acpGetVarint (Nat.lt_trans f.isLt (by decide : 2 ^ 18 < 2 ^ 64))
    have hargs : ∀ a ∈ args, (termNodesSkip depth).Takes (packing a) a.size := by
      intro a ha
      have hlt := TermTree.size_lt f ha
      exact ih a ha (h.arg ha) (by omega) depth (by omega)
    have hsum := (Reader.Takes.many hargs).map fun sizes => (1 + sizes.sum) % 2 ^ 32
    rw [TermTree.size_node] at hsize ⊢
    rw [Nat.mod_eq_of_lt hsize] at hsum
    exact takes_case (hlabel.bind ((takes_getArity h.arity).bind hsum))

/-- Whatever is unpacked has no placeholder and no constructor with more arguments. -/
theorem unpackTerm_carried (depth : ℕ) : (unpackTerm depth).Gives Carried := by
  induction depth with
  | zero =>
    intro bs t rest h
    cases h
  | succ depth ih =>
    rw [unpackTerm]
    refine Reader.gives_true.bind fun disc _ => ?_
    have harity : getArity.Gives fun n => n ≤ rewriteMaxArity := Reader.gives_true.map fun n _ => by
      split <;> omega
    split
    · refine Reader.gives_true.bind fun label _ => harity.bind fun n hn => ?_
      refine (ih.many n).map fun args hargs => ?_
      exact Carried.node (Nat.le_trans (Nat.le_of_eq hargs.1) hn) hargs.2
    · split
      · exact Reader.gives_true.bind fun dtype _ =>
          Reader.gives_true.map fun val _ => Carried.leaf fun w => Atom.noConfusion
      · exact Reader.gives_true.map fun id _ => Carried.leaf fun w => Atom.noConfusion

/-! ## The packed matcher -/

theorem takes_nodeHead (f : BitVec 18) {n : ℕ} (hn : n < 2 ^ 32) :
    nodeHead.Takes (acpPutVarint f.toNat ++ acpPutVarint n) (f.toNat, n) := by
  have hlabel := takes_getU32 (Nat.lt_trans f.isLt (by decide : 2 ^ 18 < 2 ^ 32))
  refine hlabel.bind ?_
  exact (takes_getU32 hn).map _

theorem acpMatchTerm_node {f : BitVec 18} {args : List CpTerm} (hargs : args.length < 2 ^ 32)
    (subj : CpTerm) (sub : Bindings) (rest : List UInt8) :
    acpMatchTerm subj sub (packing (.node f args) ++ rest) =
      match subj with
      | .leaf _ => some ((false, sub), args.flatMap packing ++ rest)
      | .node g bs =>
        if g.toNat ≠ f.toNat then some ((false, sub), args.flatMap packing ++ rest)
        else if bs.length ≠ args.length then some ((false, sub), args.flatMap packing ++ rest)
        else acpMatchArgs bs sub (args.flatMap packing ++ rest) := by
  have hhead := takes_nodeHead f hargs (args.flatMap packing ++ rest)
  rw [packing_node, nodeRecord, Nat.mod_eq_of_lt hargs, List.append_assoc, List.cons_append]
  cases subj with
  | leaf l => simp only [acpMatchTerm, Reader.byte, if_true, hhead]
  | node g bs => simp only [acpMatchTerm, Reader.byte, if_true, hhead]

/-- On a leaf of the pattern the two matchers do the same. -/
theorem acpMatchTerm_leaf (l : Atom) (subj : CpTerm) (sub : Bindings) (rest : List UInt8) :
    ∃ rest', acpMatchTerm subj sub (packing (.leaf l) ++ rest) =
      some (thvmMatch (.leaf l) subj sub, rest') ∧
        ((thvmMatch (.leaf l) subj sub).1 = true → rest' = rest) := by
  cases l with
  | fvr id =>
    have hid := takes_getU32 (Nat.lt_trans id.isLt (by decide : 2 ^ 18 < 2 ^ 32))
    have hread := (hid.map fun id => bindVar id subj sub) rest
    refine ⟨rest, ?_, fun _ => rfl⟩
    rw [packing_leaf, atomRecord, List.cons_append]
    cases subj with
    | leaf l => simpa [acpMatchTerm, Reader.byte, thvmMatch] using hread
    | node g bs => simpa [acpMatchTerm, Reader.byte, thvmMatch] using hread
  | num dtype val =>
    refine ⟨acpPutVarint dtype.toNat ++ acpPutVarint val.toNat ++ rest, ?_, ?_⟩
    · rw [packing_leaf, atomRecord, List.cons_append]
      cases subj <;> simp [acpMatchTerm, Reader.byte, thvmMatch]
    · cases subj <;> simp [thvmMatch]
  | other w =>
    refine ⟨rest, ?_, fun _ => rfl⟩
    rw [packing_leaf, atomRecord, List.cons_append, List.nil_append]
    cases subj <;> simp [acpMatchTerm, Reader.byte, thvmMatch]

/-- Arities as the heap has them. -/
def AritiesBelow (n : ℕ) (t : CpTerm) : Prop := t.Every fun _ k => k < n

/-- The packed matcher does on the records what `thvm_match` does on the term. -/
theorem acpMatchTerm_packing {p : CpTerm} (hp : AritiesBelow (2 ^ 32) p) :
    ∀ subj sub rest, ∃ rest', acpMatchTerm subj sub (packing p ++ rest) =
      some (thvmMatch p subj sub, rest') ∧ ((thvmMatch p subj sub).1 = true → rest' = rest) := by
  induction p using TermTree.induct with
  | leaf l => exact acpMatchTerm_leaf l
  | node f args ih =>
    obtain ⟨hlen, hargs⟩ := TermTree.every_node.mp hp
    have hmatch : ∀ ps ⊆ args, ∀ subjs : List CpTerm, subjs.length = ps.length → ∀ sub rest,
        ∃ rest', acpMatchArgs subjs sub (ps.flatMap packing ++ rest) =
          some (thvmMatchArgs ps subjs sub, rest') ∧
            ((thvmMatchArgs ps subjs sub).1 = true → rest' = rest) := by
      intro ps
      induction ps with
      | nil =>
        intro _ subjs hsubjs sub rest
        obtain rfl := List.length_eq_zero_iff.mp hsubjs
        exact ⟨rest, rfl, fun _ => rfl⟩
      | cons p ps ihps =>
        intro hsub subjs hsubjs sub rest
        obtain ⟨hp, hps⟩ := List.cons_subset.mp hsub
        cases subjs with
        | nil => cases hsubjs
        | cons subj subjs =>
          obtain ⟨rest₁, hhead, hrest₁⟩ :=
            ih p hp (hargs p hp) subj sub (ps.flatMap packing ++ rest)
          rw [List.flatMap_cons, List.append_assoc, acpMatchArgs, hhead]
          simp only [thvmMatchArgs]
          cases hok : (thvmMatch p subj sub).1 with
          | true =>
            rw [hrest₁ hok]
            simp only [if_true]
            exact ihps hps subjs (Nat.succ.inj hsubjs) _ rest
          | false =>
            refine ⟨rest₁, ?_, fun h => ?_⟩
            · simp
            · simp at h
    intro subj sub rest
    rw [acpMatchTerm_node hlen]
    cases subj with
    | leaf l =>
      refine ⟨args.flatMap packing ++ rest, ?_, ?_⟩
      · simp [thvmMatch]
      · simp [thvmMatch]
    | node g bs =>
      simp only [thvmMatch]
      by_cases hfg : f = g
      · subst hfg
        by_cases hbs : bs.length = args.length
        · obtain ⟨rest', hrun, hrest'⟩ := hmatch args (List.Subset.refl _) bs hbs sub rest
          exact ⟨rest', by simpa [hbs] using hrun, by simpa [hbs] using hrest'⟩
        · have hne : args.length ≠ bs.length := fun h => hbs h.symm
          refine ⟨args.flatMap packing ++ rest, ?_, ?_⟩
          · simp [hbs, hne]
          · simp [hne]
      · have hne : g.toNat ≠ f.toNat := fun h => hfg (BitVec.eq_of_toNat_eq h.symm)
        refine ⟨args.flatMap packing ++ rest, ?_, ?_⟩
        · simp [hfg, hne]
        · simp [hfg]

/-- `acp_match_pair` on the bytes of a pair is `thvm_match` on its terms. -/
theorem acpMatchPair_packing {l r : CpTerm} (hl : AritiesBelow (2 ^ 32) l)
    (hr : AritiesBelow (2 ^ 32) r) (ql qr : CpTerm) (sub : Bindings) :
    acpMatchPair (packing l ++ packing r) ql qr sub = some (thvmMatchPair l r ql qr sub) := by
  obtain ⟨rest, hlhs, hrest⟩ := acpMatchTerm_packing hl ql sub (packing r)
  rw [acpMatchPair, hlhs, thvmMatchPair]
  cases hok : (thvmMatch l ql sub).1 with
  | false => simp [hok]
  | true =>
    obtain ⟨rest', hrhs, _⟩ := acpMatchTerm_packing hr qr (thvmMatch l ql sub).2 []
    rw [List.append_nil] at hrhs
    simp [hok, hrest hok, hrhs]

/-! ## The pair as a whole -/

/-- A pair comes back from its bytes, and everything that reads the bytes finds it there. -/
structure RoundTrips (l r : CpTerm) (p : Packed) : Prop where
  unpack : acpUnpack p.bytes = some ((l, r), [])
  lhs_ends : acpUnpackTerm p.bytes = some (l, p.bytes.drop p.lhsLen)
  rhs_nodes : acpRhsNodes p.bytes = some r.size
  matching : ∀ ql qr sub, acpMatchPair p.bytes ql qr sub = some (thvmMatchPair l r ql qr sub)

theorem Carried.aritiesBelow {t : CpTerm} (h : Carried t) : AritiesBelow (2 ^ 32) t := by
  have hevery := h.every
  clear h
  induction hevery with
  | leaf l => exact .leaf l
  | node hnode hargs ih => exact .node (Nat.lt_of_le_of_lt hnode (by decide)) ih

theorem acpUnpackTerm_packing {t : CpTerm} (h : Carried t) (rest : List UInt8) :
    acpUnpackTerm (packing t ++ rest) = some (t, rest) := by
  have hsize := size_le_length_packing t
  refine takes_unpackTerm h _ ?_ rest
  rw [List.length_append]
  omega

theorem acpTermNodesSkip_packing {t : CpTerm} (h : Carried t) (hsize : t.size < 2 ^ 32)
    (rest : List UInt8) : acpTermNodesSkip (packing t ++ rest) = some (t.size, rest) := by
  have hlen := size_le_length_packing t
  refine takes_termNodesSkip h hsize _ ?_ rest
  rw [List.length_append]
  omega

/-- No more bytes than the buffer has. -/
theorem Fits.length_le {pos : ℕ} {rs : List (List UInt8)} (h : Fits pos rs)
    (hlen : ∀ record ∈ rs, record.length ≤ 21) (hpos : pos ≤ 2 ^ 31) :
    pos + rs.flatten.length ≤ 2 ^ 31 := by
  induction rs generalizing pos with
  | nil => simpa using hpos
  | cons record rs ih =>
    obtain ⟨hroom, hrest⟩ := h
    have hrecord := hlen record List.mem_cons_self
    have htail := ih hrest (fun r hr => hlen r (List.mem_cons_of_mem _ hr)) (by omega)
    rw [List.flatten_cons, List.length_append]
    omega

theorem RoundTrips.carried {l r : CpTerm} {p : Packed} (h : RoundTrips l r p) :
    Carried l ∧ Carried r := by
  have hpair : acpUnpack.Gives fun q => Carried q.1 ∧ Carried q.2 := by
    have hterm : acpUnpackTerm.Gives Carried := fun bs => unpackTerm_carried bs.length bs
    exact hterm.bind fun l' hl' => hterm.map fun r' hr' => ⟨hl', hr'⟩
  exact hpair _ _ _ h.unpack

/-- From whatever capacity, a pair is packed to bytes that it round-trips through if and only
if no constructor has more than `REWRITE_MAX_ARITY` arguments, no placeholder occurs and the
records fit in the scratch buffer. -/
theorem acpPack_roundTrips_iff (l r : CpTerm) :
    (∀ cap : ScratchCap, ∃ rounds p, acpPack rounds cap l r = some p ∧ RoundTrips l r p) ↔
      Carried l ∧ Carried r ∧ Fits 0 (records l ++ records r) := by
  constructor
  · intro h
    obtain ⟨rounds, p, hpack, htrip⟩ := h ⟨0, .inl rfl⟩
    obtain ⟨hfits, hbytes, hlen⟩ := acpPack_spec hpack
    obtain ⟨hl, hr⟩ := htrip.carried
    exact ⟨hl, hr, hfits⟩
  · rintro ⟨hl, hr, hfits⟩ cap
    obtain ⟨p, hpack⟩ := exists_acpPack (Nat.le_refl 20) cap hfits
    obtain ⟨_, hbytes, hlen⟩ := acpPack_spec hpack
    obtain ⟨hfitsl, hfitsr⟩ := fits_append.mp hfits
    have hlenl := hfitsl.length_le (fun record hrecord => (length_record l record hrecord).2)
      (Nat.zero_le _)
    have hlenr := hfitsr.length_le (fun record hrecord => (length_record r record hrecord).2) hlenl
    have hsizel := size_le_length_packing l
    have hsizer := size_le_length_packing r
    rw [packing] at hsizel hsizer
    have hlhs := acpUnpackTerm_packing hl (packing r)
    have hrhs := acpUnpackTerm_packing hr []
    rw [List.append_nil] at hrhs
    refine ⟨20, p, hpack, ?_, ?_, ?_, ?_⟩
    · rw [hbytes, acpUnpack, Reader.bind, hlhs]
      simp [Reader.map, Reader.bind, hrhs, Reader.pure]
    · rw [hbytes, hlen, List.drop_left, hlhs]
    · have hskipl := acpTermNodesSkip_packing hl (by omega) (packing r)
      have hskipr := acpTermNodesSkip_packing hr (by omega) []
      rw [List.append_nil] at hskipr
      rw [hbytes, acpRhsNodes, Reader.bind, hskipl]
      simp [hskipr]
    · intro ql qr sub
      rw [hbytes]
      exact acpMatchPair_packing hl.aritiesBelow hr.aritiesBelow ql qr sub

/-- The unpacker reads 16 of the 17 arguments, and the last one as the right side. -/
theorem acpPack_loses_argument :
    ¬ ∀ cap : ScratchCap, ∃ rounds p,
      acpPack rounds cap (.node 7 (List.replicate 17 (.leaf (.fvr 0)))) (.leaf (.fvr 1)) =
          some p ∧
        RoundTrips (.node 7 (List.replicate 17 (.leaf (.fvr 0)))) (.leaf (.fvr 1)) p := by
  intro h
  obtain ⟨rounds, p, -, htrip⟩ := h ⟨0, .inl rfl⟩
  have harity := htrip.carried.1.arity
  rw [List.length_replicate] at harity
  exact absurd harity (by decide)

end Acp

end Thvm
