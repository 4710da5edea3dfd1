import Thvm.WorkStealingHistory
import Mathlib.Data.Multiset.AddSub

/-!
# The deque as the code around it sees it

One atomic step of the owner or of a thief, told by the contents, the element that
the owner has won but not yet returned, and the value the operation returns.
-/

namespace Thvm.WorkStealingDeque
open SequentialDeque

variable {α ι : Type*}

/-- The operation the owner is inside of. -/
def ownerOp : OwnerPc α → Option (Op α)
  | .idle => none
  | .push x | .pushTop x _ | .pushSlot x _ | .pushBot x _ => some (.push x)
  | _ => some .pop

/-- The element that the owner has won and not yet returned. -/
def inFlight : OwnerPc α → Multiset α
  | .popWon x _ => {x}
  | _ => 0

/-- What a step inside `op` does to the contents and to the element in flight. -/
inductive OwnerShows : Op α → List α → Multiset α → Option (Event α) → Option (Reply α) →
    List α → Multiset α → Prop
  | quiet (op : Op α) (c : List α) (f : Multiset α) : OwnerShows op c f none none c f
  | full (c : List α) (x : α) :
      OwnerShows (.push x) c 0 (some (.full x)) (some .full) c 0
  | push (c : List α) (x : α) :
      OwnerShows (.push x) c 0 (some (.push x)) (some .pushed) (c ++ [x]) 0
  | pop (c : List α) (x : α) :
      OwnerShows .pop (c ++ [x]) 0 (some (.pop x)) (some (.got x)) c 0
  | won (c : List α) (x : α) : OwnerShows .pop (c ++ [x]) 0 (some (.pop x)) none c {x}
  | handOver (c : List α) (x : α) : OwnerShows .pop c {x} none (some (.got x)) c 0
  | empty : OwnerShows .pop [] 0 (some .popNone) (some .none) [] 0

inductive ThiefShows : List α → Option (Event α) → Option (Reply α) → List α → Prop
  | quiet (c : List α) : ThiefShows c none none c
  | steal (x : α) (c : List α) : ThiefShows (x :: c) (some (.steal x)) (some (.got x)) c
  | lost (c : List α) : ThiefShows c (some .stealNone) (some .none) c

/-- The operation that goes on after a step, if it has not returned. -/
def stillIn (op : Op α) (reply : Option (Reply α)) : Option (Op α) :=
  if reply.isNone then some op else none

section Effects
variable {cap : ℕ} {c c' : List α} {x : α}

theorem OwnerShows.of_same {op : Op α} {f : Multiset α} (h : c' = c) :
    OwnerShows op c f none none c' f := h ▸ .quiet _ _ _

theorem OwnerShows.of_full (h : Effect cap c (.full x) c') :
    OwnerShows (.push x) c 0 (some (.full x)) (some .full) c' 0 := by
  cases h
  exact .full _ _

theorem OwnerShows.of_push (h : Effect cap c (.push x) c') :
    OwnerShows (.push x) c 0 (some (.push x)) (some .pushed) c' 0 := by
  cases h
  exact .push _ _

theorem OwnerShows.of_pop (h : Effect cap c (.pop x) c') :
    OwnerShows .pop c 0 (some (.pop x)) (some (.got x)) c' 0 := by
  cases h
  exact .pop _ _

theorem OwnerShows.of_won (h : Effect cap c (.pop x) c') :
    OwnerShows .pop c 0 (some (.pop x)) none c' {x} := by
  cases h
  exact .won _ _

theorem OwnerShows.of_empty (h : Effect cap c .popNone c') :
    OwnerShows .pop c 0 (some .popNone) (some .none) c' 0 := by
  cases h
  exact .empty

theorem ThiefShows.of_steal (h : Effect cap c (.steal x) c') :
    ThiefShows c (some (.steal x)) (some (.got x)) c' := by
  cases h
  exact .steal _ _

end Effects

theorem ownerShows_step {q : WsDeque α} {pc : OwnerPc α} {op : Op α} (h : Core q pc)
    (hop : ownerOp pc = some op) (hroom : ∀ x b, pc = .pushBot x b → q.bot + 1 < 2 ^ 64) :
    OwnerShows op (content q pc) (inFlight pc) (ownerStep q pc).event (ownerStep q pc).reply
        (content (ownerStep q pc).deque (ownerStep q pc).pc) (inFlight (ownerStep q pc).pc) ∧
      ownerOp (ownerStep q pc).pc = stillIn op (ownerStep q pc).reply := by
  have heffect := (ownerMove_step h hroom).effect
  cases pc <;> simp only [ownerOp, Option.some.injEq, reduceCtorEq] at hop <;> subst hop <;>
    simp only [ownerStep] at heffect ⊢
  case push | pushSlot | popDec => exact ⟨.of_same heffect, rfl⟩
  case pushTop | pop | popTop | popSlot | popCas =>
    split at heffect
    · rename_i htest
      simp only [if_pos htest]
      first
        | exact ⟨.of_full heffect, rfl⟩
        | exact ⟨.of_empty heffect, rfl⟩
        | exact ⟨.of_won heffect, rfl⟩
        | exact ⟨.of_same heffect, rfl⟩
    · rename_i htest
      simp only [if_neg htest]
      first
        | exact ⟨.of_same heffect, rfl⟩
        | exact ⟨.of_pop heffect, rfl⟩
  case pushBot => exact ⟨.of_push heffect, rfl⟩
  case popWon =>
    have hsame : _ = content q (.popWon _ _) := heffect
    exact ⟨hsame ▸ .handOver _ _, rfl⟩
  case popLost | popEmpty => exact ⟨.of_empty heffect, rfl⟩

theorem thiefShows_step {q : WsDeque α} {pc : OwnerPc α} {th : ThiefPc α} (h : Core q pc)
    (hth : ThiefInv q pc th) :
    ThiefShows (content q pc) (thiefStep q th).event (thiefStep q th).reply
      (content (thiefStep q th).deque pc) := by
  have heffect := (thiefMove_step h hth).effect
  cases th <;> simp only [thiefStep] at heffect ⊢
  case idle | steal | stealSlot => exact .quiet _
  case stealBot t =>
    split
    · exact .lost _
    · exact .quiet _
  case stealCas x t =>
    split at heffect
    · rename_i htest
      simp only [if_pos htest]
      exact .of_steal heffect
    · rename_i htest
      simp only [if_neg htest]
      exact .lost _

variable [DecidableEq ι] {s s' : State ι α} {l : Label ι α}

/-- A step of the owner by code that is inside `op`, or about to call it. -/
theorem ownerShows {op : Op α} (h : Inv s) (hs : Step s l s') (hactor : l.actor = .owner)
    (hcall : l.call = none ∨ l.call = some op)
    (hop : ownerOp s.owner = none ∨ ownerOp s.owner = some op)
    (hroom : ∀ x, l.event = some (.push x) → s.q.bot + 1 < 2 ^ 64) :
    OwnerShows op (content s.q s.owner) (inFlight s.owner) l.event l.reply
        (content s'.q s'.owner) (inFlight s'.owner) ∧
      ownerOp s'.owner = stillIn op l.reply := by
  cases hs with
  | @ownerCall op' pc hidle hentry =>
    obtain rfl : op' = op := by simpa using hcall
    rw [hidle]
    cases op' <;> simp only [ownerEntry, Option.some.injEq, reduceCtorEq] at hentry
    all_goals subst hentry; exact ⟨.quiet _ _ _, rfl⟩
  | ownerRun hbusy =>
    have hin : ownerOp s.owner = some op := by
      refine hop.resolve_left fun hnone => hbusy ?_
      cases ho : s.owner <;> rw [ho] at hnone <;> simp [ownerOp] at hnone
    exact ownerShows_step h.core hin fun x b hpc => hroom x (by rw [hpc]; rfl)
  | thiefCall => exact absurd hactor (by simp)
  | thiefRun => exact absurd hactor (by simp)

theorem thiefShows {i : ι} (h : Inv s) (hs : Step s l s') (hactor : l.actor = .thief i) :
    ThiefShows (content s.q s.owner) l.event l.reply (content s'.q s'.owner) ∧
      s'.owner = s.owner := by
  cases hs with
  | ownerCall => exact absurd hactor (by simp)
  | ownerRun => exact absurd hactor (by simp)
  | thiefCall => exact ⟨.quiet _, rfl⟩
  | thiefRun i hbusy => exact ⟨thiefShows_step h.core (h.thief i), rfl⟩

end Thvm.WorkStealingDeque
