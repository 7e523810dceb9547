/-!
An operation can end without an answer in two ways. A fault means that its input lies outside its domain. A
refusal means that it understood its input and names what is wrong with it.
-/

namespace SinglePath

/-- An operation was applied outside its domain. -/
inductive Fault where
  /-- The input names a block, scope, register or slot that does not exist. -/
  | dangling
  /-- A number leaves the range of its machine word. -/
  | overflow
  /-- A scope lies inside itself, so its walk has no end. -/
  | endless
  /-- The body of a repeat statement is not straight-line code. -/
  | nestedBody
deriving DecidableEq, Repr

/-- A failure is a fault or a refusal with its cause. -/
inductive Failure (ε : Type) where
  | fault (cause : Fault)
  | refused (cause : ε)
deriving DecidableEq, Repr

/-- A missing item is a dangling reference. -/
def present {α : Type} : Option α → Except Fault α
  | some value => .ok value
  | none => .error .dangling

/-- A number that is kept in a machine word of 32 bits. -/
def inWord (number : Nat) : Except Fault Nat :=
  if number < 0x100000000 then .ok number else .error .overflow

def refuse {ε α : Type} (cause : ε) : Except (Failure ε) α := .error (.refused cause)

def demand {ε : Type} (condition : Bool) (cause : ε) : Except (Failure ε) Unit :=
  if condition then .ok () else refuse cause

/-- A computation that can only fault runs inside one that can also refuse. -/
def Failure.ofFault {ε α : Type} : Except Fault α → Except (Failure ε) α
  | .ok value => .ok value
  | .error cause => .error (.fault cause)

instance {ε : Type} : MonadLift (Except Fault) (Except (Failure ε)) := ⟨Failure.ofFault⟩

@[simp] theorem present_some {α : Type} (value : α) : present (some value) = .ok value := rfl

@[simp] theorem present_none {α : Type} : present (none : Option α) = .error .dangling := rfl

theorem present_eq_ok {α : Type} {item : Option α} {value : α} :
    present item = .ok value ↔ item = some value := by
  cases item <;> simp [present]

theorem inWord_eq_ok {number kept : Nat} : inWord number = .ok kept ↔ number < 0x100000000 ∧ number = kept := by
  unfold inWord
  split <;> simp [*]

@[simp] theorem Failure.ofFault_ok {ε α : Type} (value : α) :
    (Failure.ofFault (.ok value) : Except (Failure ε) α) = .ok value := rfl

theorem bind_eq_ok {ε α β : Type} {value : Except ε α} {next : α → Except ε β} {result : β} :
    (value >>= next) = .ok result ↔ ∃ produced, value = .ok produced ∧ next produced = .ok result := by
  cases value with
  | error cause => simp [bind, Except.bind]
  | ok produced => simp [bind, Except.bind]

theorem demand_eq_ok {ε : Type} {condition : Bool} {cause : ε} :
    demand condition cause = .ok () ↔ condition = true := by
  cases condition <;> simp [demand, refuse]

theorem demand_bind_eq_ok {ε α : Type} {condition : Bool} {cause : ε} {next : Unit → Except (Failure ε) α}
    {result : α} :
    (demand condition cause >>= next) = .ok result ↔ condition = true ∧ next () = .ok result := by
  cases condition <;> simp [demand, refuse, bind, Except.bind]

end SinglePath
