import Prenex.Wire.Reader

/-!
# Readers as scripts

A reader is a function, so it does not show what it does on the way. A script does: it says what is
taken next, in the light of what was taken before. The reader of a node has a script, so what holds
of all scripts holds of it.
-/

namespace Prenex.Wire

/-- What a reader does, step by step. -/
inductive Script (α : Type) where
  | done (a : α)
  | fault (e : Fault)
  | position (next : Nat → Script α)
  | take (n : Nat) (next : Bytes → Script α)

namespace Script

variable {α β : Type}

protected def bind : Script α → (α → Script β) → Script β
  | .done a, f => f a
  | .fault e, _ => .fault e
  | .position next, f => .position fun i => (next i).bind f
  | .take n next, f => .take n fun bs => (next bs).bind f

instance : Monad Script where
  pure := .done
  bind := .bind

def run : Script α → Reader α
  | .done a => pure a
  | .fault e => Reader.fault e
  | .position next => Reader.position >>= fun i => (next i).run
  | .take n next => Reader.take n >>= fun bs => (next bs).run

/-! ## The script of a node -/

def bytes (n : Nat) : Script Bytes := .take n .done

def here : Script Nat := .position .done

def number (width : Nat) : Script Nat := do return ofLittleEndian (← bytes width)

def index : Script Index := do return UInt32.ofNat (← number 4)

def text : Script String := do
  let len ← number 4
  let offset ← here
  match ofUtf8? (← bytes len) with
  | some s => return s
  | none => .fault (.invalidUtf8 offset)

def constructor : Script Constructor := do
  let encoded := Fingerprint.ofBytes (← bytes 16)
  let package ← text
  let module ← text
  let name ← text
  let c := Constructor.of package module name
  if c.fingerprint = encoded then return c else .fault (.fingerprintMismatch encoded c.fingerprint)

def head : Script Head := do
  let offset ← here
  let tag := UInt8.ofNat (← number 1)
  if tag = conTag then return .con (← constructor)
  else if tag = varTag then return .var (← index)
  else if tag = skolemTag then return .skolem (← index)
  else .fault (.invalidTag tag offset)

def node : Script (Head × Nat) := do
  let h ← head
  return (h, ← number 4)

/-! ## Running scripts -/

@[simp] theorem run_pure (a : α) : (pure a : Script α).run = pure a := rfl

@[simp] theorem run_fault (e : Fault) : (Script.fault e : Script α).run = Reader.fault e := rfl

@[simp] theorem run_bytes (n : Nat) : (bytes n).run = Reader.take n := bind_pure _

@[simp] theorem run_here : here.run = Reader.position := bind_pure _

@[simp] theorem run_bind (s : Script α) (f : α → Script β) :
    (s >>= f).run = s.run >>= fun a => (f a).run := by
  induction s with
  | done a => rfl
  | fault e => rfl
  | position next ih =>
    show (Reader.position >>= fun i => (next i >>= f).run) =
        (Reader.position >>= fun i => (next i).run) >>= _
    simp only [ih, bind_assoc]
  | take n next ih =>
    show (Reader.take n >>= fun bs => (next bs >>= f).run) =
        (Reader.take n >>= fun bs => (next bs).run) >>= _
    simp only [ih, bind_assoc]

@[simp] theorem run_number (width : Nat) : (number width).run = Reader.number width := by
  simp [number, Reader.number]

@[simp] theorem run_index : index.run = Reader.index := by
  simp [index, Reader.index]

@[simp] theorem run_text : text.run = Reader.text := by
  simp only [text, Reader.text, run_bind, run_number, run_here, run_bytes]
  refine bind_congr fun len => bind_congr fun offset => bind_congr fun bs => ?_
  cases ofUtf8? bs with
  | none => rfl
  | some s => rfl

@[simp] theorem run_constructor : constructor.run = Reader.constructor := by
  simp only [constructor, Reader.constructor, run_bind, run_text, run_bytes, apply_ite run,
    run_pure, run_fault]

@[simp] theorem run_head : head.run = Reader.head := by
  simp only [head, Reader.head, run_bind, run_number, run_here, run_constructor, run_index,
    apply_ite run, run_pure, run_fault]

theorem run_node : node.run = Reader.node := by
  simp [node, Reader.node]

end Script

end Prenex.Wire
