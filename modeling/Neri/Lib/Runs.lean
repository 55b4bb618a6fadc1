import Mathlib.Logic.Basic

/-!
# Structured programs with jumps

A program relates the state it starts in to its exits: by a value, or by a jump. Programs choose
freely where something outside them decides. The jump `stopped` stands for a run that traps or is only
watched up to that point, so that what holds of all exits holds at every point of a run without an end.

The rules for pre- and postconditions follow the constructs, one for each.
-/

namespace Runs

/-- How a program leaves its place other than by a value. -/
inductive Jump where
  | broke
  | continued
  | returned
  | stopped
  deriving DecidableEq, Repr

inductive Exit (α : Type) where
  | value (result : α)
  | jump (kind : Jump)

/-- Programs over the states `σ` with results in `α`. -/
def Prog (σ α : Type) : Type := σ → Exit α → σ → Prop

namespace Prog

variable {σ α β : Type}

instance : Monad (Prog σ) where
  pure res := fun s exit s' => exit = .value res ∧ s' = s
  bind first next := fun s exit s' =>
    (∃ res mid, first s (.value res) mid ∧ next res mid exit s') ∨
      ∃ kind, first s (.jump kind) s' ∧ exit = .jump kind

def jump (kind : Jump) : Prog σ α := fun s exit s' => exit = .jump kind ∧ s' = s

def read (part : σ → α) : Prog σ α := fun s exit s' => exit = .value (part s) ∧ s' = s

def update (change : σ → σ) : Prog σ Unit := fun s exit s' => exit = .value () ∧ s' = change s

def choose (possible : α → Prop) : Prog σ α := fun s exit s' =>
  (∃ res, possible res ∧ exit = .value res) ∧ s' = s

def either (left right : Prog σ α) : Prog σ α := fun s exit s' => left s exit s' ∨ right s exit s'

/-- Changes the state whichever way the program exits, unless it stops. -/
def atExit (program : Prog σ α) (change : σ → σ) : Prog σ α := fun s exit s' =>
  (exit = .jump .stopped ∧ program s exit s') ∨
    (exit ≠ .jump .stopped ∧ ∃ mid, program s exit mid ∧ s' = change mid)

/-- Repeats a step until it gives `false` or breaks; a step that continues is over. -/
inductive loop (step : Prog σ Bool) : Prog σ Unit
  | stop (s : σ) : loop step s (.jump .stopped) s
  | done {s s' : σ} : step s (.value false) s' → loop step s (.value ()) s'
  | broke {s s' : σ} : step s (.jump .broke) s' → loop step s (.value ()) s'
  | returned {s s' : σ} : step s (.jump .returned) s' → loop step s (.jump .returned) s'
  | stopped {s s' : σ} : step s (.jump .stopped) s' → loop step s (.jump .stopped) s'
  | again {s mid s' : σ} {exit : Exit Unit} :
      step s (.value true) mid → loop step mid exit s' → loop step s exit s'
  | continued {s mid s' : σ} {exit : Exit Unit} :
      step s (.jump .continued) mid → loop step mid exit s' → loop step s exit s'

end Prog

/-- From a state in `pre`, an exit by a value is in `post` and an exit by a jump in `jumps`. -/
def Triple {σ α : Type} (pre : σ → Prop) (program : Prog σ α) (post : α → σ → Prop)
    (jumps : Jump → σ → Prop) : Prop :=
  ∀ s exit s', pre s → program s exit s' →
    match exit with
    | .value res => post res s'
    | .jump kind => jumps kind s'

variable {σ α β : Type} {program first left right : Prog σ α} {next : α → Prog σ β}
  {step : Prog σ Bool} {change : σ → σ} {condition : Prop} [Decidable condition]

namespace Triple

variable {pre pre' : σ → Prop} {post post' : α → σ → Prop} {jumps jumps' : Jump → σ → Prop}

theorem value (h : Triple pre program post jumps) {s s' : σ} {res : α} (hpre : pre s)
    (hrun : program s (.value res) s') : post res s' := h s _ s' hpre hrun

theorem jumped (h : Triple pre program post jumps) {s s' : σ} {kind : Jump} (hpre : pre s)
    (hrun : program s (.jump kind) s') : jumps kind s' := h s _ s' hpre hrun

theorem intro (hvalue : ∀ s res s', pre s → program s (.value res) s' → post res s')
    (hjump : ∀ s kind s', pre s → program s (.jump kind) s' → jumps kind s') :
    Triple pre program post jumps := by
  intro s exit s' hpre hrun
  cases exit with
  | value res => exact hvalue s res s' hpre hrun
  | jump kind => exact hjump s kind s' hpre hrun

variable (h : Triple pre program post jumps)
include h

theorem weaken (hpre : ∀ s, pre' s → pre s) (hpost : ∀ res s, post res s → post' res s)
    (hjumps : ∀ kind s, jumps kind s → jumps' kind s) : Triple pre' program post' jumps' :=
  intro (fun _ _ _ hs hrun => hpost _ _ (h.value (hpre _ hs) hrun))
    fun _ _ _ hs hrun => hjumps _ _ (h.jumped (hpre _ hs) hrun)

theorem strengthenPre (hpre : ∀ s, pre' s → pre s) : Triple pre' program post jumps :=
  h.weaken hpre (fun _ _ hs => hs) fun _ _ hs => hs

theorem weakenPost (hpost : ∀ res s, post res s → post' res s) : Triple pre program post' jumps :=
  h.weaken (fun _ hs => hs) hpost fun _ _ hs => hs

theorem weakenJumps
    (hjumps : ∀ kind s, jumps kind s → jumps' kind s) : Triple pre program post jumps' :=
  h.weaken (fun _ hs => hs) (fun _ _ hs => hs) hjumps

omit h

theorem of_fact {fact : Prop} (h : fact → Triple pre program post jumps) :
    Triple (fun s => fact ∧ pre s) program post jumps :=
  fun s exit s' hpre hrun => h hpre.1 s exit s' hpre.2 hrun

theorem both (h : Triple pre program post jumps) (h' : Triple pre' program post' jumps') :
    Triple (fun s => pre s ∧ pre' s) program (fun res s => post res s ∧ post' res s)
      (fun kind s => jumps kind s ∧ jumps' kind s) :=
  intro (fun _ _ _ hs hrun => ⟨h.value hs.1 hrun, h'.value hs.2 hrun⟩)
    fun _ _ _ hs hrun => ⟨h.jumped hs.1 hrun, h'.jumped hs.2 hrun⟩

theorem pure {res : α} (h : ∀ s, pre s → post res s) :
    Triple pre (Pure.pure res : Prog σ α) post jumps := by
  rintro s _ _ hpre ⟨rfl, rfl⟩
  exact h _ hpre

theorem bind {between : α → σ → Prop} {post : β → σ → Prop}
    (hfirst : Triple pre first between jumps)
    (hnext : ∀ res, Triple (between res) (next res) post jumps) :
    Triple pre (first >>= next) post jumps := by
  rintro s exit s' hpre (⟨res, mid, hrun, hrest⟩ | ⟨kind, hrun, rfl⟩)
  · exact hnext res mid exit s' (hfirst.value hpre hrun) hrest
  · exact hfirst.jumped hpre hrun

/-- Binding a part of the state. -/
theorem bindRead {part : σ → α} {post : β → σ → Prop}
    (h : ∀ res, Triple (fun s => res = part s ∧ pre s) (next res) post jumps) :
    Triple pre (Prog.read part >>= next) post jumps := by
  rintro s exit s' hpre (⟨res, mid, ⟨hresult, rfl⟩, hrest⟩ | ⟨kind, ⟨hjump, -⟩, -⟩)
  · cases hresult
    exact h _ _ exit s' ⟨rfl, hpre⟩ hrest
  · cases hjump

/-- A change of the state that leads to the precondition of what follows. -/
theorem bindUpdate {next : Unit → Prog σ β} {post : β → σ → Prop} (mid : σ → Prop)
    (hchange : ∀ s, pre s → mid (change s)) (h : Triple mid (next ()) post jumps) :
    Triple pre (Prog.update change >>= next) post jumps := by
  rintro s exit s' hpre (⟨_, _, ⟨-, rfl⟩, hrest⟩ | ⟨kind, ⟨hjump, -⟩, -⟩)
  · exact h _ exit s' (hchange s hpre) hrest
  · cases hjump

theorem jump {kind : Jump} (h : ∀ s, pre s → jumps kind s) :
    Triple pre (Prog.jump kind : Prog σ α) post jumps := by
  rintro s _ _ hpre ⟨rfl, rfl⟩
  exact h _ hpre

theorem read {part : σ → α} (h : ∀ s, pre s → post (part s) s) :
    Triple pre (Prog.read part) post jumps := by
  rintro s _ _ hpre ⟨rfl, rfl⟩
  exact h _ hpre

theorem update {post : Unit → σ → Prop} (h : ∀ s, pre s → post () (change s)) :
    Triple pre (Prog.update change) post jumps := by
  rintro s _ _ hpre ⟨rfl, rfl⟩
  exact h _ hpre

theorem choose {possible : α → Prop} (h : ∀ s res, pre s → possible res → post res s) :
    Triple pre (Prog.choose possible) post jumps := by
  rintro s _ _ hpre ⟨⟨res, hresult, rfl⟩, rfl⟩
  exact h _ res hpre hresult

theorem either (hleft : Triple pre left post jumps) (hright : Triple pre right post jumps) :
    Triple pre (Prog.either left right) post jumps := by
  rintro s exit s' hpre (hrun | hrun)
  · exact hleft s exit s' hpre hrun
  · exact hright s exit s' hpre hrun

theorem ite (hleft : condition → Triple pre left post jumps)
    (hright : ¬condition → Triple pre right post jumps) :
    Triple pre (if condition then left else right) post jumps := by
  split
  · exact hleft ‹_›
  · exact hright ‹_›

/-- The change at the end of a program has to lead from its postconditions to the new ones. -/
theorem atExit (h : Triple pre program post jumps)
    (hpost : ∀ res s, post res s → post' res (change s))
    (hjumps : ∀ kind s, kind ≠ .stopped → jumps kind s → jumps' kind (change s))
    (hstopped : ∀ s, jumps .stopped s → jumps' .stopped s) :
    Triple pre (program.atExit change) post' jumps' := by
  rintro s exit s' hpre (⟨rfl, hrun⟩ | ⟨hexit, mid, hrun, rfl⟩)
  · exact hstopped s' (h.jumped hpre hrun)
  · cases exit with
    | value res => exact hpost res mid (h.value hpre hrun)
    | jump kind =>
      have hkind : kind ≠ .stopped := fun heq => hexit (congrArg Exit.jump heq)
      exact hjumps kind mid hkind (h.jumped hpre hrun)

/-- The rule of loops: `invariant` holds whenever a step begins. -/
theorem loop {invariant : σ → Prop} {post : Unit → σ → Prop} {during : Jump → σ → Prop}
    (hstep : Triple invariant step (fun again s => if again then invariant s else post () s) during)
    (hbroke : ∀ s, during .broke s → post () s)
    (hcontinued : ∀ s, during .continued s → invariant s)
    (hreturned : ∀ s, during .returned s → jumps .returned s)
    (hstopped : ∀ s, during .stopped s → jumps .stopped s)
    (hstop : ∀ s, invariant s → jumps .stopped s) :
    Triple invariant (Prog.loop step) post jumps := by
  intro s exit s' hpre hrun
  induction hrun with
  | stop s => exact hstop s hpre
  | done h => simpa using hstep.value hpre h
  | broke h => exact hbroke _ (hstep.jumped hpre h)
  | returned h => exact hreturned _ (hstep.jumped hpre h)
  | stopped h => exact hstopped _ (hstep.jumped hpre h)
  | again h _ ih => exact ih (by simpa using hstep.value hpre h)
  | continued h _ ih => exact ih (hcontinued _ (hstep.jumped hpre h))

end Triple

/-- `program` keeps a property of the state, whichever way it exits. -/
def Preserves {σ α : Type} (property : σ → Prop) (program : Prog σ α) : Prop :=
  Triple property program (fun _ => property) (fun _ => property)

namespace Preserves

variable {property : σ → Prop}

theorem pure (res : α) : Preserves property (Pure.pure res : Prog σ α) :=
  Triple.pure fun _ h => h

theorem jump (kind : Jump) : Preserves property (Prog.jump kind : Prog σ α) :=
  Triple.jump fun _ h => h

theorem read (part : σ → α) : Preserves property (Prog.read part) := Triple.read fun _ h => h

theorem update (h : ∀ s, property s → property (change s)) :
    Preserves property (Prog.update change) := Triple.update h

theorem choose (possible : α → Prop) : Preserves property (Prog.choose possible : Prog σ α) :=
  Triple.choose fun _ _ h _ => h

theorem bind (hfirst : Preserves property first)
    (hnext : ∀ res, Preserves property (next res)) : Preserves property (first >>= next) :=
  Triple.bind hfirst hnext

theorem either (hleft : Preserves property left) (hright : Preserves property right) :
    Preserves property (Prog.either left right) :=
  Triple.either hleft hright

theorem ite (hleft : Preserves property left) (hright : Preserves property right) :
    Preserves property (if condition then left else right) :=
  Triple.ite (fun _ => hleft) fun _ => hright

theorem atExit (h : Preserves property program) (hchange : ∀ s, property s → property (change s)) :
    Preserves property (program.atExit change) :=
  Triple.atExit h (fun _ s => hchange s) (fun _ s _ => hchange s) fun _ h => h

theorem loop (h : Preserves property step) : Preserves property (Prog.loop step) :=
  Triple.loop (h.weaken (fun _ h => h) (fun again _ hs => by cases again <;> exact hs)
    fun _ _ h => h) (fun _ h => h) (fun _ h => h) (fun _ h => h) (fun _ h => h) fun _ h => h

end Preserves

/-- `program` never exits by a value. -/
def NoValue {σ α : Type} (program : Prog σ α) : Prop :=
  ∀ s res s', ¬program s (.value res) s'

namespace NoValue

theorem jump (kind : Jump) : NoValue (Prog.jump kind : Prog σ α) := by
  rintro s res s' ⟨h, -⟩
  cases h

theorem bind (h : ∀ res, NoValue (next res)) : NoValue (first >>= next) := by
  rintro s res s' (⟨value, mid, -, hrest⟩ | ⟨kind, -, hexit⟩)
  · exact h value mid res s' hrest
  · cases hexit

theorem bind_first (h : NoValue first) : NoValue (first >>= next) := by
  rintro s res s' (⟨value, mid, hfirst, -⟩ | ⟨kind, -, hexit⟩)
  · exact h s value mid hfirst
  · cases hexit

theorem either (hleft : NoValue left) (hright : NoValue right) :
    NoValue (Prog.either left right) := by
  rintro s res s' (hrun | hrun)
  · exact hleft s res s' hrun
  · exact hright s res s' hrun

theorem ite (hleft : NoValue left) (hright : NoValue right) :
    NoValue (if condition then left else right) := by
  split
  · exact hleft
  · exact hright

theorem atExit (h : NoValue program) : NoValue (program.atExit change) := by
  rintro s res s' (⟨hexit, -⟩ | ⟨-, mid, hrun, -⟩)
  · cases hexit
  · exact h s res mid hrun

/-- Whatever is claimed of the exits by a value. -/
theorem triple {pre : σ → Prop} {post post' : α → σ → Prop} {jumps : Jump → σ → Prop}
    (h : NoValue program) (ht : Triple pre program post jumps) : Triple pre program post' jumps :=
  .intro (fun s res s' _ hrun => absurd hrun (h s res s')) fun _ _ _ hs hrun =>
    ht.jumped hs hrun

end NoValue

end Runs
