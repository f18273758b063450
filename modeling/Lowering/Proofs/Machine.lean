import Mathlib
import Lowering.Proofs.Listing

/-!
# Running a function body

The meaning of the code of a function body, for its integer instructions: an interpreter that runs the items of the
body one at a time on a frame of registers, stack slots, globals and incoming arguments. A register holds an integer
or a truth value. A stack slot exists once an `alloca` has made it, holding what the slot starts with; reading or
writing a slot that was never made has no meaning. A jump continues after the first place of its label in the body.

The integer instructions compute on 32-bit two's complement (`ArithOp.apply`, `CmpOp.holds`). Division is `udiv`: it
reads both operands as unsigned, and agrees with signed division only where neither is negative
(`ArithOp.apply_div_of_nonneg`); the remainder, the shift right and the comparisons are signed. Division by zero,
the remainder by zero or of the least integer by minus one, and a shift by a negative amount or by 32 or more are
undefined. An
instruction that reads what does not exist or whose result is undefined stops the run with no result, as does running
off the end of the code.

`run` runs a bounded number of steps; a body returns a value, with the globals it leaves, when some bound is enough
(`Returns`), and fails when none is (`Fails`). `Steps` is a finite run that has not returned yet; a return seen from
a point is seen from every point the run passes through (`Returns.of_steps`, `Returns.steps`).
-/

namespace Lowering

/-- The value of an arithmetic instruction on 32-bit two's complement, none where it is undefined. -/
def ArithOp.apply : ArithOp → Int32 → Int32 → Option Int32
  | .add, a, b => some (a + b)
  | .sub, a, b => some (a - b)
  | .mul, a, b => some (a * b)
  | .div, a, b => if b = 0 then none else some (a.toUInt32 / b.toUInt32).toInt32
  | .mod, a, b => if b = 0 ∨ (a = Int32.minValue ∧ b = -1) then none else some (a % b)
  | .shl, a, b => if b < 0 ∨ 32 ≤ b then none else some (a <<< b)
  | .shr, a, b => if b < 0 ∨ 32 ≤ b then none else some (a >>> b)

/-- A non-negative 32-bit integer has its sign bit clear. -/
theorem Int32.msb_of_nonneg {a : Int32} (ha : 0 ≤ a) : a.toBitVec.msb = false := by
  rw [Int32.le_iff_toInt_le, Int32.toInt_zero, ← Int32.toInt_toBitVec] at ha
  rw [BitVec.msb_eq_toInt]
  simpa using ha

/-- On operands that are not negative, unsigned division is the signed division that truncates toward zero. -/
theorem ArithOp.apply_div_of_nonneg {a b : Int32} (ha : 0 ≤ a) (hb : 0 < b) : ArithOp.div.apply a b = some (a / b) := by
  have hb₀ : b ≠ 0 := fun e => Int32.lt_irrefl (e ▸ hb)
  rw [apply, if_neg hb₀, Option.some_inj]
  apply Int32.toBitVec_inj.mp
  rw [Int32.toBitVec_div, BitVec.sdiv_eq, Int32.msb_of_nonneg ha, Int32.msb_of_nonneg (Int32.le_of_lt hb)]
  simp

/-- Whether a signed comparison holds. -/
def CmpOp.holds : CmpOp → Int32 → Int32 → Bool
  | .eq, a, b => decide (a = b)
  | .ne, a, b => decide (a ≠ b)
  | .lt, a, b => decide (a < b)
  | .gt, a, b => decide (b < a)
  | .le, a, b => decide (a ≤ b)
  | .ge, a, b => decide (b ≤ a)

namespace Ir

/-- What a register holds: an integer, or a truth value. -/
inductive Word where
  | int (v : Int32)
  | bit (b : Bool)
  deriving DecidableEq, Repr

/-- The state of a running function body: its registers, its stack slots by name (none until made), the globals by
name, and its incoming arguments by name. -/
structure Frame where
  regs : Reg → Option Word
  slots : String → Option Int32
  globals : String → Int32
  args : String → Option Int32

namespace Frame

/-- What an operand holds. -/
def operand (fr : Frame) : Value → Option Word
  | .int n => some (.int n)
  | .reg r => fr.regs r
  | .arg name => (fr.args name).map .int
  | .null => none

/-- The integer an operand holds. -/
def int? (fr : Frame) (v : Value) : Option Int32 :=
  match fr.operand v with
  | some (.int n) => some n
  | _ => none

/-- The truth value an operand holds. -/
def bit? (fr : Frame) (v : Value) : Option Bool :=
  match fr.operand v with
  | some (.bit b) => some b
  | _ => none

/-- What an address holds: a slot once made, a global always. -/
def read (fr : Frame) : Address → Option Int32
  | .slot name => fr.slots name
  | .global name => some (fr.globals name)

/-- The frame with an address written: a slot only once made. -/
def write (fr : Frame) : Address → Int32 → Option Frame
  | .slot name, v => (fr.slots name).map fun _ => { fr with slots := Function.update fr.slots name (some v) }
  | .global name, v => some { fr with globals := Function.update fr.globals name v }

/-- The frame with a register set. -/
def set (fr : Frame) (r : Reg) (w : Word) : Frame := { fr with regs := Function.update fr.regs r (some w) }

/-- The frame with a slot made, holding what it starts with. -/
def alloc (fr : Frame) (name : String) (v : Int32) : Frame :=
  { fr with slots := Function.update fr.slots name (some v) }

/-- An operand reads as an integer exactly when it holds one. -/
theorem int?_eq_some {fr : Frame} {v : Value} {n : Int32} : fr.int? v = some n ↔ fr.operand v = some (.int n) := by
  unfold int?
  cases fr.operand v with
  | none => simp
  | some w => cases w <;> simp

/-- An operand reads as a truth value exactly when it holds one. -/
theorem bit?_eq_some {fr : Frame} {v : Value} {b : Bool} : fr.bit? v = some b ↔ fr.operand v = some (.bit b) := by
  unfold bit?
  cases fr.operand v with
  | none => simp
  | some w => cases w <;> simp

/-- A constant operand holds itself. -/
@[simp] theorem operand_int (fr : Frame) (n : Int32) : fr.operand (.int n) = some (.int n) := rfl

/-- A register operand holds what the register holds. -/
@[simp] theorem operand_reg (fr : Frame) (r : Reg) : fr.operand (.reg r) = fr.regs r := rfl

/-- Setting a register updates it. -/
@[simp] theorem set_regs (fr : Frame) (r : Reg) (w : Word) : (fr.set r w).regs = Function.update fr.regs r (some w) :=
  rfl

/-- Setting a register leaves the slots alone. -/
@[simp] theorem set_slots (fr : Frame) (r : Reg) (w : Word) : (fr.set r w).slots = fr.slots := rfl

/-- Setting a register leaves the globals alone. -/
@[simp] theorem set_globals (fr : Frame) (r : Reg) (w : Word) : (fr.set r w).globals = fr.globals := rfl

/-- Setting a register leaves the arguments alone. -/
@[simp] theorem set_args (fr : Frame) (r : Reg) (w : Word) : (fr.set r w).args = fr.args := rfl

/-- Making a slot leaves the registers alone. -/
@[simp] theorem alloc_regs (fr : Frame) (name : String) (v : Int32) : (fr.alloc name v).regs = fr.regs := rfl

/-- Making a slot gives it its starting contents. -/
@[simp] theorem alloc_slots (fr : Frame) (name : String) (v : Int32) :
    (fr.alloc name v).slots = Function.update fr.slots name (some v) := rfl

/-- Making a slot leaves the globals alone. -/
@[simp] theorem alloc_globals (fr : Frame) (name : String) (v : Int32) : (fr.alloc name v).globals = fr.globals := rfl

/-- Making a slot leaves the arguments alone. -/
@[simp] theorem alloc_args (fr : Frame) (name : String) (v : Int32) : (fr.alloc name v).args = fr.args := rfl

end Frame

/-- Where a step of a function body leads: on, to the code still to run with the frame, or out, returning a value
with the globals. -/
inductive Next where
  | go (code : List Item) (fr : Frame)
  | done (v : Int32) (globals : String → Int32)

/-- The code after the first place of a label. -/
def after (l : Label) : List Item → Option (List Item)
  | [] => none
  | i :: rest => if i = .label l then some rest else after l rest

/-- A label placed after code that does not place it is found there. -/
theorem after_of_not_mem {l : Label} {pre : List Item} (h : l ∉ placed pre) (rest : List Item) :
    after l (pre ++ .label l :: rest) = some rest := by
  induction pre with
  | nil => simp [after]
  | cons i pre ih =>
    have hi : i ≠ .label l := fun e => h (by simp [e, Item.placed])
    rw [List.cons_append, after, if_neg hi]
    exact ih fun hl => h (by simp [hl])

/-- Runs an instruction of a body, with `rest` the code after it; `init` gives what a slot starts with. -/
def Instr.exec (body : List Item) (init : String → Int32) (rest : List Item) (fr : Frame) : Instr → Option Next
  | .alloca name _ => some (.go rest (fr.alloc name (init name)))
  | .load r _ a => (fr.read a).map fun v => .go rest (fr.set r (.int v))
  | .arith r op l l' =>
    (fr.int? l).bind fun a => (fr.int? l').bind fun b => (op.apply a b).map fun c => .go rest (fr.set r (.int c))
  | .icmp r op l l' =>
    (fr.int? l).bind fun a => (fr.int? l').map fun b => .go rest (fr.set r (.bit (op.holds a b)))
  | .widen r v => (fr.bit? v).map fun b => .go rest (fr.set r (.int (if b then 1 else 0)))
  | .store _ v a => (fr.int? v).bind fun n => (fr.write a n).map (.go rest ·)
  | .jump l => (after l body).map (.go · fr)
  | .branch c l₁ l₂ => (fr.bit? c).bind fun b => (after (if b then l₁ else l₂) body).map (.go · fr)
  | .ret _ v => (fr.int? v).map (.done · fr.globals)
  | _ => none

/-- One step of a body's code: a label is passed, an instruction run. -/
def step (body : List Item) (init : String → Int32) : List Item → Frame → Option Next
  | .label _ :: rest, fr => some (.go rest fr)
  | .instr i :: rest, fr => i.exec body init rest fr
  | _, _ => none

/-- At most `n` steps of a body's code: the value returned with the globals, or none if it has not returned. -/
def run (body : List Item) (init : String → Int32) : Nat → List Item → Frame → Option (Int32 × (String → Int32))
  | 0, _, _ => none
  | n + 1, code, fr =>
    match step body init code fr with
    | some (.go code' fr') => run body init n code' fr'
    | some (.done v gs) => some (v, gs)
    | none => none

section Runs

variable {body : List Item} {init : String → Int32}

/-- The code returns a value with the globals. -/
def Returns (body : List Item) (init : String → Int32) (code : List Item) (fr : Frame) (r : Int32 × (String → Int32)) :
    Prop :=
  ∃ n, run body init n code fr = some r

/-- The code never returns. -/
def Fails (body : List Item) (init : String → Int32) (code : List Item) (fr : Frame) : Prop :=
  ∀ n, run body init n code fr = none

/-- Finitely many steps that have not returned, from one point of the code and frame to another. -/
inductive Steps (body : List Item) (init : String → Int32) : List Item → Frame → List Item → Frame → Prop
  | refl (code : List Item) (fr : Frame) : Steps body init code fr code fr
  | head {code code₁ code' : List Item} {fr fr₁ fr' : Frame} :
      step body init code fr = some (.go code₁ fr₁) → Steps body init code₁ fr₁ code' fr' →
      Steps body init code fr code' fr'

/-- A step that goes on uses one step of the budget. -/
theorem run_go {code code' : List Item} {fr fr' : Frame} (h : step body init code fr = some (.go code' fr'))
    (n : Nat) : run body init (n + 1) code fr = run body init n code' fr' := by
  simp [run, h]

/-- A run that returns within a budget returns the same within a larger one. -/
theorem run_mono {code : List Item} {fr : Frame} {r : Int32 × (String → Int32)} {n : Nat}
    (h : run body init n code fr = some r) (k : Nat) : run body init (n + k) code fr = some r := by
  induction n generalizing code fr with
  | zero => simp [run] at h
  | succ n ih =>
    rw [Nat.succ_add]
    simp only [run] at h ⊢
    split at h
    · exact ih h
    · exact h
    · cases h

namespace Steps

/-- One step that goes on is a run of steps. -/
theorem single {code code' : List Item} {fr fr' : Frame} (h : step body init code fr = some (.go code' fr')) :
    Steps body init code fr code' fr' :=
  .head h (.refl _ _)

/-- Steps followed by steps are steps. -/
theorem trans {c₁ c₂ c₃ : List Item} {f₁ f₂ f₃ : Frame} (h₁ : Steps body init c₁ f₁ c₂ f₂)
    (h₂ : Steps body init c₂ f₂ c₃ f₃) : Steps body init c₁ f₁ c₃ f₃ := by
  induction h₁ with
  | refl => exact h₂
  | head hs _ ih => exact .head hs (ih h₂)

/-- The machine steps over a label, frame unchanged. -/
theorem label (l : Label) (rest : List Item) (fr : Frame) : Steps body init (.label l :: rest) fr rest fr :=
  single rfl

end Steps

/-- A return seen after some steps is seen before them. -/
theorem Returns.of_steps {c c' : List Item} {f f' : Frame} {r : Int32 × (String → Int32)}
    (h : Steps body init c f c' f') (hr : Returns body init c' f' r) : Returns body init c f r := by
  induction h with
  | refl => exact hr
  | head hs _ ih =>
    obtain ⟨n, hn⟩ := ih hr
    exact ⟨n + 1, by rw [run_go hs]; exact hn⟩

/-- A failure seen after some steps is seen before them. -/
theorem Fails.of_steps {c c' : List Item} {f f' : Frame} (h : Steps body init c f c' f')
    (hf : Fails body init c' f') : Fails body init c f := by
  induction h with
  | refl => exact hf
  | head hs _ ih =>
    intro n
    cases n with
    | zero => rfl
    | succ n => rw [run_go hs]; exact ih hf n

/-- Code that cannot take its next step never returns. -/
theorem fails_of_step {c : List Item} {f : Frame} (h : step body init c f = none) : Fails body init c f := by
  intro n
  cases n with
  | zero => rfl
  | succ n => simp [run, h]

/-- A run is deterministic: what it returns after one step within `n + 1` steps it returns from there within `n`. -/
theorem run_of_go {c c' : List Item} {f f' : Frame} {r : Int32 × (String → Int32)} {n : Nat}
    (hs : step body init c f = some (.go c' f')) (hr : run body init n c f = some r) :
    ∃ m, n = m + 1 ∧ run body init m c' f' = some r := by
  cases n with
  | zero => simp [run] at hr
  | succ m => exact ⟨m, rfl, by rwa [run_go hs] at hr⟩

/-- What a point returns, every point the run passes through returns, within fewer steps when it has moved. -/
theorem run_of_steps {c c' : List Item} {f f' : Frame} {r : Int32 × (String → Int32)} {n : Nat}
    (h : Steps body init c f c' f') (hr : run body init n c f = some r) :
    ∃ m ≤ n, run body init m c' f' = some r := by
  induction h generalizing n with
  | refl => exact ⟨n, le_refl n, hr⟩
  | head hs _ ih =>
    obtain ⟨m, rfl, hm⟩ := run_of_go hs hr
    obtain ⟨k, hk, hk'⟩ := ih hm
    exact ⟨k, by omega, hk'⟩

/-- A run that moves to another point returns from there within fewer steps. -/
theorem run_lt_of_steps {c c' : List Item} {f f' : Frame} {r : Int32 × (String → Int32)} {n : Nat}
    (h : Steps body init c f c' f') (hne : c ≠ c') (hr : run body init n c f = some r) :
    ∃ m < n, run body init m c' f' = some r := by
  cases h with
  | refl => exact absurd rfl hne
  | head hs h' =>
    obtain ⟨m, rfl, hm⟩ := run_of_go hs hr
    obtain ⟨k, hk, hk'⟩ := run_of_steps h' hm
    exact ⟨k, by omega, hk'⟩

/-- What a point returns, every point the run passes through returns. -/
theorem Returns.steps {c c' : List Item} {f f' : Frame} {r : Int32 × (String → Int32)}
    (h : Steps body init c f c' f') (hr : Returns body init c f r) : Returns body init c' f' r := by
  obtain ⟨n, hn⟩ := hr
  obtain ⟨m, -, hm⟩ := run_of_steps h hn
  exact ⟨m, hm⟩

/-- A run returns at most one value. -/
theorem Returns.unique {c : List Item} {f : Frame} {r r' : Int32 × (String → Int32)} (h : Returns body init c f r)
    (h' : Returns body init c f r') : r = r' := by
  obtain ⟨n, hn⟩ := h
  obtain ⟨m, hm⟩ := h'
  have e₁ := run_mono hn m
  have e₂ := run_mono hm n
  rw [Nat.add_comm] at e₂
  exact Option.some.inj (e₁.symm.trans e₂)

/-- A run that returns does not fail. -/
theorem Returns.not_fails {c : List Item} {f : Frame} {r : Int32 × (String → Int32)} (h : Returns body init c f r)
    (hf : Fails body init c f) : False := by
  obtain ⟨n, hn⟩ := h
  rw [hf n] at hn
  cases hn

end Runs

end Ir

end Lowering
