namespace EditorSync.Editor

structure Timer where
  delay : Nat
  deadline : Option Nat
  deriving DecidableEq, Repr

namespace Timer

def defaultDelay : Nat := 1000

def new (delay : Nat) : Timer := ⟨delay, none⟩

def schedule (t : Timer) (now : Nat) : Timer := { t with deadline := some (now + t.delay) }

def cancel (t : Timer) : Timer := { t with deadline := none }

def isDue (t : Timer) (now : Nat) : Bool := t.deadline.any (· ≤ now)

def takeDue (t : Timer) (now : Nat) : Timer × Bool :=
  if t.isDue now then (t.cancel, true) else (t, false)

end Timer
end EditorSync.Editor
