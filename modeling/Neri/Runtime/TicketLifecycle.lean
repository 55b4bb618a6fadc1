import Neri.Runtime.WorkerPool

/-!
# The life of a ticket

What a pool is for, seen from one ticket: the ticket is given out, waits, is worked on, is completed
and is taken, in this order, and it may be completed while it waits. The records of a pool say in
which phase each ticket is.
-/

namespace Neri.Runtime

inductive Phase where
  | fresh
  | queued
  | active
  | completed (kind : CompletionKind) (output : List UInt8)
  | taken
  deriving DecidableEq, Repr

namespace Phase

/-- What may happen to a ticket, where `replied` are the bytes of a reply. -/
inductive Move (replied : List UInt8 → Prop) : Phase → Phase → Prop
  | accept : Move replied .fresh .queued
  | receive : Move replied .queued .active
  | withdraw {kind : CompletionKind} : kind ≠ .success → Move replied .queued (.completed kind [])
  | drop {kind : CompletionKind} : kind ≠ .success → Move replied .active (.completed kind [])
  | reply {output : List UInt8} : replied output → Move replied .active (.completed .success output)
  | take {kind : CompletionKind} {output : List UInt8} :
      Move replied (.completed kind output) .taken

/-- The ticket is completed, and maybe taken. -/
def settled : Phase → Bool
  | .completed _ _ => true
  | .taken => true
  | _ => false

/-- The ticket is completed and not taken. -/
def isCompleted : Phase → Bool
  | .completed _ _ => true
  | _ => false

/-- Nothing happens, or one move. -/
def Follows (replied : List UInt8 → Prop) (before after : Phase) : Prop :=
  after = before ∨ Move replied before after

variable {replied : List UInt8 → Prop} {before after : Phase}

theorem Follows.settled (h : Follows replied before after) (hsettled : before.settled = true) :
    after.settled = true := by
  rcases h with rfl | h
  · exact hsettled
  · cases h <;> first | rfl | cases hsettled

theorem Follows.completed {kind : CompletionKind} {output : List UInt8}
    (h : Follows replied (.completed kind output) after) :
    after = .completed kind output ∨ after = .taken := by
  rcases h with rfl | h
  · exact .inl rfl
  · cases h
    exact .inr rfl

theorem Follows.taken (h : Follows replied .taken after) : after = .taken := by
  rcases h with rfl | h
  · rfl
  · cases h

theorem Follows.success {output : List UInt8} (h : Follows replied before (.completed .success output)) :
    before = .completed .success output ∨ replied output := by
  rcases h with h | h
  · exact .inl h.symm
  · cases h with
    | withdraw hkind => exact absurd rfl hkind
    | drop hkind => exact absurd rfl hkind
    | reply hreplied => exact .inr hreplied

theorem Follows.enters_completed_iff (h : Follows replied before after) :
    (!before.settled && after.settled) = (!before.isCompleted && after.isCompleted) := by
  rcases h with rfl | h
  · cases after <;> rfl
  · cases h <;> rfl

end Phase

/-- The phase of a ticket. -/
def Pool.phase (p : Pool) (ticket : Nat) : Phase :=
  match p.job? ticket with
  | some j =>
    if j.done then .completed j.kind j.output
    else if j.active then .active
    else .queued
  | none => if ticket < p.nextJob then .taken else .fresh

end Neri.Runtime
