import Thvm.TlsfOperations
import Thvm.TransitionRuns

/-!
# Runs of the arena allocator

Any sequence of allocations and of frees of live blocks keeps the arena tiled, free
blocks apart, the bins exact and live allocations disjoint.
-/

namespace Thvm.Tlsf
open LinkedLists IntervalTiling TransitionRuns

/-- The allocator with the allocations that are live: their offsets and requests. -/
structure Arena where
  allocator : TlsfAllocator
  live : List (ℕ × ℕ)

inductive Op
  | alloc (reqSize : ℕ)
  | free (start : ℕ)

inductive Step : Arena → Op → Arena → Prop
  | alloc {s : Arena} {a' : TlsfAllocator} {reqSize start : ℕ}
      (hcall : tlsfAlloc s.allocator reqSize = .ok (a', start)) (hstart : start ≠ oom) :
      Step s (.alloc reqSize) ⟨a', (start, reqSize) :: s.live⟩
  | fail {s : Arena} {a' : TlsfAllocator} {reqSize : ℕ}
      (hcall : tlsfAlloc s.allocator reqSize = .ok (a', oom)) :
      Step s (.alloc reqSize) ⟨a', s.live⟩
  | free {s : Arena} {a' : TlsfAllocator} {reqSize start : ℕ}
      (hlive : (start, reqSize) ∈ s.live) (hcall : tlsfFree s.allocator start = .ok a') :
      Step s (.free start) ⟨a', s.live.erase (start, reqSize)⟩

/-- The requests of an operation satisfy `P`. -/
def Op.Asks (P : ℕ → Prop) : Op → Prop
  | .alloc reqSize => P reqSize
  | .free _ => True

/-- The live allocations are the blocks that are not free. -/
structure Lives (a : TlsfAllocator) (order : List ℕ) (live : List (ℕ × ℕ)) : Prop where
  nodup : (live.map Prod.fst).Nodup
  block : ∀ p ∈ live, ∃ i ∈ order, a.isFree i = false ∧ a.start i = p.1 ∧
    a.size i = atLeastBlock p.2
  owner : ∀ i ∈ order, a.isFree i = false → ∃ p ∈ live, p.1 = a.start i

/-- What holds between the steps of a run; `regular` when every request was a
multiple of the block size. -/
structure Inv (total : ℕ) (regular : Prop) (s : Arena) (order : List ℕ) : Prop where
  total : s.allocator.total = total
  classed : tlsfLv1 s.allocator.total < tlsfLv1Max
  sound : Sound s.allocator order
  apart : Apart s.allocator.isFree order
  lives : Lives s.allocator order s.live
  aligned : regular → ∀ i ∈ order, tlsfBlockSize ∣ s.allocator.start i

variable {total : ℕ} {regular : Prop} {s s' : Arena} {order : List ℕ} {op : Op}

theorem Inv.start_lt (h : Inv total regular s order) {i : ℕ} (hi : i ∈ order) :
    s.allocator.start i < oom := by
  obtain ⟨-, hpos, hle⟩ := h.sound.layout.tiles.mem_bounds hi
  have hlt : s.allocator.total < 2 ^ 63 :=
    (bitLength_le 63 s.allocator.total).mp (Nat.le_of_lt_succ h.classed)
  have hoom : oom = 2 ^ 64 - 1 := rfl
  omega

theorem lives_alloc {a a' : TlsfAllocator} {order' : List ℕ} {live : List (ℕ × ℕ)} {bid reqSize : ℕ}
    (hs : Sound a order) (h : Lives a order live) (ht : Taken a a' order order' bid reqSize) :
    Lives a' order' ((a.start bid, reqSize) :: live) where
  nodup := by
    rw [List.map_cons, List.nodup_cons]
    refine ⟨fun hmem => ?_, h.nodup⟩
    obtain ⟨p, hp, hstart⟩ := List.mem_map.mp hmem
    obtain ⟨i, hi, hused, hstarti, -⟩ := h.block p hp
    have hib := hs.layout.tiles.start_inj hi ht.mem (hstarti.trans hstart)
    rw [hib, ht.free] at hused
    cases hused
  block := fun p hp => by
    rcases List.mem_cons.mp hp with rfl | hp
    · obtain ⟨hmem, hused⟩ := (ht.used bid).mpr (.inl rfl)
      exact ⟨bid, hmem, hused, ht.start bid ht.mem, ht.size⟩
    · obtain ⟨i, hi, hused, hstart, hsize⟩ := h.block p hp
      obtain ⟨hmem', hused'⟩ := (ht.used i).mpr (.inr ⟨hi, hused⟩)
      exact ⟨i, hmem', hused', (ht.start i hi).trans hstart, (ht.sizes i hi hused).trans hsize⟩
  owner := fun i hi hused => by
    rcases (ht.used i).mp ⟨hi, hused⟩ with rfl | ⟨hmem, hused'⟩
    · exact ⟨_, List.mem_cons_self, (ht.start i ht.mem).symm⟩
    · obtain ⟨p, hp, hstart⟩ := h.owner i hmem hused'
      exact ⟨p, List.mem_cons_of_mem _ hp, hstart.trans (ht.start i hmem).symm⟩

theorem lives_free {a a' : TlsfAllocator} {order' : List ℕ} {live : List (ℕ × ℕ)} {bid reqSize : ℕ}
    (hs : Sound a order) (h : Lives a order live) (hbid : bid ∈ order)
    (hlive : (a.start bid, reqSize) ∈ live) (hg : Given a a' order order' bid) :
    Lives a' order' (live.erase (a.start bid, reqSize)) := by
  have hnodup : live.Nodup := List.Nodup.of_map Prod.fst h.nodup
  have hmem : ∀ p ∈ live, p ≠ (a.start bid, reqSize) → p.1 ≠ a.start bid := by
    intro p hp hne he
    exact hne (List.inj_on_of_nodup_map h.nodup hp hlive he)
  refine ⟨?_, fun p hp => ?_, fun i hi hused => ?_⟩
  · exact List.Nodup.sublist (List.Sublist.map Prod.fst List.erase_sublist) h.nodup
  · obtain ⟨hne, hold⟩ := hnodup.mem_erase_iff.mp hp
    obtain ⟨i, hi, hused, hstart, hsize⟩ := h.block p hold
    have hib : i ≠ bid := fun he => hmem p hold hne (he ▸ hstart.symm)
    obtain ⟨hmem', hused'⟩ := (hg.used i).mpr ⟨hib, hi, hused⟩
    exact ⟨i, hmem', hused', (hg.start i).trans hstart, (hg.sizes i hib hused).trans hsize⟩
  · obtain ⟨hib, hi', hused'⟩ := (hg.used i).mp ⟨hi, hused⟩
    obtain ⟨p, hp, hstart⟩ := h.owner i hi' hused'
    refine ⟨p, hnodup.mem_erase_iff.mpr ⟨?_, hp⟩, hstart.trans (hg.start i).symm⟩
    rintro rfl
    exact hib (hs.layout.tiles.start_inj hi' hbid hstart.symm)

theorem dvd_atLeastBlock {reqSize : ℕ} (h : tlsfBlockSize ∣ reqSize) :
    tlsfBlockSize ∣ atLeastBlock reqSize := by
  unfold atLeastBlock
  split
  · exact Nat.dvd_refl _
  · exact h

theorem inv_step (h : Inv total regular s order) (hfits : op.Asks Fits)
    (hregular : regular → op.Asks (tlsfBlockSize ∣ ·)) (hstep : Step s op s') :
    ∃ order', Inv total regular s' order' := by
  cases hstep with
  | alloc hcall hstart =>
    rcases alloc_spec h.sound h.apart h.classed hfits with
      ⟨a₁, order', bid, hok, hs', hapart', ht⟩ | ⟨hok, -⟩ | ⟨-, herr⟩
    · obtain ⟨rfl, rfl⟩ := Prod.mk.inj (Except.ok.inj (hcall.symm.trans hok))
      refine ⟨order', ht.total.trans h.total, ht.total.symm ▸ h.classed, hs', hapart',
        lives_alloc h.sound h.lives ht, fun hreg i hi => ?_⟩
      rcases ht.new i hi with hold | hnew
      · rw [ht.start i hold]
        exact h.aligned hreg i hold
      · rw [hnew]
        exact Nat.dvd_add (h.aligned hreg bid ht.mem) (dvd_atLeastBlock (hregular hreg))
    · exact absurd (Prod.mk.inj (Except.ok.inj (hcall.symm.trans hok))).2 hstart
    · rw [herr] at hcall
      cases hcall
  | fail hcall =>
    rcases alloc_spec h.sound h.apart h.classed hfits with
      ⟨a₁, order', bid, hok, hs', hapart', ht⟩ | ⟨hok, -⟩ | ⟨-, herr⟩
    · have hstart := (Prod.mk.inj (Except.ok.inj (hcall.symm.trans hok))).2
      exact absurd hstart.symm (h.start_lt ht.mem).ne
    · obtain ⟨rfl, -⟩ := Prod.mk.inj (Except.ok.inj (hcall.symm.trans hok))
      exact ⟨order, h⟩
    · rw [herr] at hcall
      cases hcall
  | free hlive hcall =>
    obtain ⟨bid, hbid, hused, hstart, -⟩ := h.lives.block _ hlive
    subst hstart
    obtain ⟨a₁, order', hok, hs', hapart', hg⟩ :=
      free_spec h.sound h.apart h.classed hbid hused
    obtain rfl := Except.ok.inj (hcall.symm.trans hok)
    refine ⟨order', hg.total.trans h.total, hg.total.symm ▸ h.classed, hs', hapart',
      lives_free h.sound h.lives hbid hlive hg, fun hreg i hi => ?_⟩
    rw [hg.start]
    exact h.aligned hreg i (hg.sub i hi)

theorem inv_init {a : TlsfAllocator} (hinit : tlsfInit total = .ok a) :
    ∃ order, Inv total regular ⟨a, []⟩ order := by
  rcases init_spec total with ⟨a₁, order, hok, htotal, hclass, hs, hapart, hroot⟩ | ⟨-, herr⟩
  · obtain rfl := Except.ok.inj (hinit.symm.trans hok)
    refine ⟨order, htotal, htotal.symm ▸ hclass, hs, hapart, ⟨List.nodup_nil, by simp, ?_⟩, ?_⟩
    · intro i hi hused
      rw [(hroot i hi).2] at hused
      cases hused
    · intro _ i hi
      rw [(hroot i hi).1]
      exact Nat.dvd_zero _
  · rw [herr] at hinit
    cases hinit

theorem Inv.mono {regular' : Prop} (h : Inv total regular s order) (himp : regular' → regular) :
    Inv total regular' s order :=
  ⟨h.total, h.classed, h.sound, h.apart, h.lives, fun hreg => h.aligned (himp hreg)⟩

theorem inv_run {a : TlsfAllocator} {ops : List Op} (hinit : tlsfInit total = .ok a)
    (hrun : Run Step ⟨a, []⟩ ops s) (hfits : ∀ op ∈ ops, op.Asks Fits) :
    ∃ order, Inv total (∀ op ∈ ops, op.Asks (tlsfBlockSize ∣ ·)) s order := by
  induction hrun with
  | refl => exact inv_init hinit
  | @snoc ops t op u run last ih =>
    obtain ⟨order, h⟩ := ih fun op hop => hfits op (List.mem_append_left _ hop)
    have h' : Inv total (∀ o ∈ ops ++ [op], o.Asks (tlsfBlockSize ∣ ·)) t order :=
      h.mono fun hall o ho => hall o (List.mem_append_left _ ho)
    exact inv_step h' (hfits _ (List.mem_append_right _ List.mem_cons_self))
      (fun hall => hall _ (List.mem_append_right _ List.mem_cons_self)) last

/-- Two live allocations do not share a byte. -/
theorem Inv.disjoint (h : Inv total regular s order) : s.live.Pairwise fun p q =>
    p.1 + atLeastBlock p.2 ≤ q.1 ∨ q.1 + atLeastBlock q.2 ≤ p.1 := by
  have hnodup : s.live.Pairwise fun p q => p.1 ≠ q.1 := List.pairwise_map.mp h.lives.nodup
  refine hnodup.imp_of_mem fun {p q} hp hq hne => ?_
  obtain ⟨i, hi, -, hstarti, hsizei⟩ := h.lives.block p hp
  obtain ⟨j, hj, -, hstartj, hsizej⟩ := h.lives.block q hq
  have hij : i ≠ j := by
    rintro rfl
    exact hne (hstarti.symm.trans hstartj)
  have hd := h.sound.layout.tiles.disjoint hi hj hij
  rwa [hstarti, hsizei, hstartj, hsizej] at hd

/-- What a call of `tlsf_alloc` can come to. -/
def AllocOutcome (a : TlsfAllocator) (reqSize : ℕ) : Prop :=
  (∃ a' start, tlsfAlloc a reqSize = .ok (a', start) ∧ start ≠ oom) ∨
  (tlsfAlloc a reqSize = .ok (a, oom) ∧ ∀ i, a.isFree i = true → a.size i < rounded reqSize) ∨
  Exhausted a ∧ tlsfAlloc a reqSize = .error .exit

theorem Inv.alloc (h : Inv total regular s order) {reqSize : ℕ} (hfits : Fits reqSize) :
    AllocOutcome s.allocator reqSize := by
  rcases alloc_spec h.sound h.apart h.classed hfits with
    ⟨a', order', bid, hok, -, -, ht⟩ | hfail | hexit
  · exact .inl ⟨a', _, hok, (h.start_lt ht.mem).ne⟩
  · exact .inr (.inl hfail)
  · exact .inr (.inr hexit)

theorem Inv.free (h : Inv total regular s order) {p : ℕ × ℕ} (hp : p ∈ s.live) :
    ∃ a', tlsfFree s.allocator p.1 = .ok a' := by
  obtain ⟨i, hi, hused, hstart, -⟩ := h.lives.block p hp
  obtain ⟨a', -, hok, -⟩ := free_spec h.sound h.apart h.classed hi hused
  exact ⟨a', hstart ▸ hok⟩

theorem tlsf_runs {total : ℕ} {a : TlsfAllocator} {ops : List Op} {s : Arena}
    (hinit : tlsfInit total = .ok a) (hrun : Run Step ⟨a, []⟩ ops s)
    (hfits : ∀ op ∈ ops, op.Asks Fits) :
    ∃ order chains,
      (∀ i, i ∈ order ↔ i < s.allocator.nBlocks ∧ s.allocator.alive i = true) ∧
      Doubly s.allocator.next s.allocator.prev none order ∧
      Tiles s.allocator.start s.allocator.size 0 order total ∧
      Apart s.allocator.isFree order ∧
      Binned s.allocator chains ∧
      (∀ i, s.allocator.isFree i = true → i ∈ order) ∧
      (∀ p ∈ s.live, ∃ i ∈ order, s.allocator.isFree i = false ∧ s.allocator.start i = p.1 ∧
        s.allocator.size i = atLeastBlock p.2 ∧ p.2 ≤ atLeastBlock p.2) ∧
      (s.live.Pairwise fun p q =>
        p.1 + atLeastBlock p.2 ≤ q.1 ∨ q.1 + atLeastBlock q.2 ≤ p.1) ∧
      ((∀ op ∈ ops, op.Asks (tlsfBlockSize ∣ ·)) → ∀ p ∈ s.live, tlsfBlockSize ∣ p.1) ∧
      (∀ reqSize, Fits reqSize → AllocOutcome s.allocator reqSize) ∧
      ∀ p ∈ s.live, ∃ a', tlsfFree s.allocator p.1 = .ok a' := by
  obtain ⟨order, h⟩ := inv_run hinit hrun hfits
  obtain ⟨chains, hb⟩ := h.sound.binned
  refine ⟨order, chains, h.sound.layout.mem, h.sound.layout.links, h.total ▸ h.sound.layout.tiles,
    h.apart, hb, h.sound.free, fun p hp => ?_, h.disjoint, fun hall p hp => ?_,
    fun reqSize hreq => h.alloc hreq, fun p hp => h.free hp⟩
  · obtain ⟨i, hi, hused, hstart, hsize⟩ := h.lives.block p hp
    exact ⟨i, hi, hused, hstart, hsize, (atLeastBlock_spec p.2).1⟩
  · obtain ⟨i, hi, -, hstart, -⟩ := h.lives.block p hp
    rw [← hstart]
    exact h.aligned hall i hi

/-- The offsets that a list of requests gets, one after another. -/
def offsets (a : TlsfAllocator) : List ℕ → Except Stop (List ℕ)
  | [] => .ok []
  | reqSize :: rest => do
    let (a', start) ← tlsfAlloc a reqSize
    let starts ← offsets a' rest
    .ok (start :: starts)

theorem run_offsets {reqs starts : List ℕ} (h : offsets s.allocator reqs = .ok starts)
    (hoom : oom ∉ starts) : ∃ s', Run Step s (reqs.map Op.alloc) s' ∧
      s'.live = (starts.zip reqs).reverse ++ s.live := by
  induction reqs generalizing s starts with
  | nil =>
    obtain rfl := Except.ok.inj h
    exact ⟨s, .refl, rfl⟩
  | cons reqSize rest ih =>
    cases hcall : tlsfAlloc s.allocator reqSize with
    | error e => simp [offsets, hcall, bind, Except.bind] at h
    | ok r =>
      obtain ⟨a', start⟩ := r
      cases hrest : offsets a' rest with
      | error e => simp [offsets, hcall, hrest, bind, Except.bind] at h
      | ok starts' =>
        obtain rfl : start :: starts' = starts := by
          simpa [offsets, hcall, hrest, bind, Except.bind] using h
        simp only [List.mem_cons, not_or] at hoom
        have hstep : Step s (.alloc reqSize) ⟨a', (start, reqSize) :: s.live⟩ :=
          .alloc hcall (Ne.symm hoom.1)
        obtain ⟨s', hrun, hlive⟩ := ih (s := ⟨a', (start, reqSize) :: s.live⟩) hrest hoom.2
        refine ⟨s', (Run.single hstep).trans hrun, ?_⟩
        rw [hlive]
        simp

theorem init_offsets {reqs starts : List ℕ}
    (h : (tlsfInit total).bind (fun a => offsets a reqs) = .ok starts) (hoom : oom ∉ starts) :
    ∃ a s, tlsfInit total = .ok a ∧ Run Step ⟨a, []⟩ (reqs.map Op.alloc) s ∧
      s.live = (starts.zip reqs).reverse := by
  cases hinit : tlsfInit total with
  | error e =>
    rw [hinit] at h
    cases h
  | ok a =>
    rw [hinit] at h
    obtain ⟨s, hrun, hlive⟩ := run_offsets (s := ⟨a, []⟩) h hoom
    exact ⟨a, s, rfl, hrun, by simpa using hlive⟩

theorem tlsf_runs_two : ∃ a s, tlsfInit 2048 = .ok a ∧
    Run Step ⟨a, []⟩ [.alloc 512, .alloc 300] s ∧ s.live = [(512, 300), (0, 512)] ∧
    ∃ order, Tiles s.allocator.start s.allocator.size 0 order 2048 := by
  obtain ⟨a, s, hinit, hrun, hlive⟩ := init_offsets
    (by decide +kernel : (tlsfInit 2048).bind (fun a => offsets a [512, 300]) = .ok [0, 512])
    (by decide)
  obtain ⟨order, chains, -, -, htiles, -⟩ := tlsf_runs hinit hrun (by simp [Op.Asks, Fits])
  exact ⟨a, s, hinit, hrun, hlive, order, htiles⟩

/-- A request that is no multiple of the block size puts the next one off the grid. -/
theorem tlsf_unaligned : ∃ a s, tlsfInit 1024 = .ok a ∧
    Run Step ⟨a, []⟩ [.alloc 300, .alloc 256] s ∧ (300, 256) ∈ s.live ∧ ¬ tlsfBlockSize ∣ 300 := by
  obtain ⟨a, s, hinit, hrun, hlive⟩ := init_offsets
    (by decide +kernel : (tlsfInit 1024).bind (fun a => offsets a [300, 256]) = .ok [0, 300])
    (by decide)
  exact ⟨a, s, hinit, hrun, by simp [hlive], by decide⟩

end Thvm.Tlsf
