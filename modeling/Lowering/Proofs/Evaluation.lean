import Lowering.Proofs.Machine

/-!
# What a function of the integer fragment computes

A big-step semantics of function bodies built from integer expressions and structured control flow. A running
function has its own variables, parameters and locals, and the globals of the unit by name (`Env`). A local has no
value until a declaration gives it the contents its storage starts with; reading or assigning it before is an error,
as is an arithmetic operation whose result is undefined (`ArithOp.apply`). A comparison's value is one or zero, and
a test takes any value but zero as true.

Operands are evaluated left to right; an assignment's value is the value stored. An expression evaluates to a value
and the environment it leaves, or to an error (`Eval`). An instruction ends normally, returns a value, or fails
(`Exec`); the items of a block run in order until one does not end normally, and a loop runs from its test. A
function returns what its body returns, or zero when the body ends normally (`Program.Returns`).
-/

namespace Lowering

/-- The variables of a running function: its own (parameters and locals, none until declared) by symbol, and the
globals of the unit by name. -/
structure Env where
  vars : SymbolId → Option Int32
  globals : String → Int32

/-- The environment a function with parameters `ps` starts in: the parameters hold the arguments, in order, and no
local is declared. -/
def Env.entry (ps : List SymbolId) (args : List Int32) (globals : String → Int32) : Env :=
  ⟨fun s => (ps.zip args).lookup s, globals⟩

/-- How an instruction ends: normally in an environment, returning a value, or with an error. -/
inductive Outcome where
  | normal (ρ : Env)
  | ret (v : Int32) (ρ : Env)
  | error

/-- An instruction that ended other than normally: the rest of its block does not run. -/
def Outcome.Abrupt : Outcome → Prop
  | .normal _ => False
  | _ => True

/-- What the function returns with the globals it leaves, if the body ended so: a return's value, or zero. -/
def Outcome.result : Outcome → Option (Int32 × (String → Int32))
  | .normal ρ => some (0, ρ.globals)
  | .ret v ρ => some (v, ρ.globals)
  | .error => none

/-- The parts of a body that a run goes through: a node, the items of a block from some item on, and a loop from its
test, with the step expression of a `for` loop. -/
inductive Code where
  | node (id : NodeId)
  | seq (items : List NodeId)
  | loop (cond : NodeId) (step : Option NodeId) (body : NodeId)

namespace Program

variable (p : Program) (ps : List SymbolId)

/-- The global a variable names inside a function with parameters `ps`, by name; none for a parameter or a local. -/
def globalOf (s : SymbolId) : Option String :=
  if ps.contains s then none
  else if (p.symbols.symbol s).flags.global || (p.symbols.symbol s).flags.external then some (p.symbols.symbol s).name
  else none

/-- The value of a variable, none for a local not declared yet. -/
def load (ρ : Env) (s : SymbolId) : Option Int32 :=
  match p.globalOf ps s with
  | some n => some (ρ.globals n)
  | none => ρ.vars s

/-- The environment with a variable assigned, none for a local not declared yet. -/
def store (ρ : Env) (s : SymbolId) (v : Int32) : Option Env :=
  match p.globalOf ps s with
  | some n => some { ρ with globals := Function.update ρ.globals n v }
  | none => (ρ.vars s).map fun _ => { ρ with vars := Function.update ρ.vars s (some v) }

/-- The environment with locals declared, each holding what the storage of its name starts with. -/
def declareVars (init : String → Int32) (ρ : Env) (syms : List SymbolId) : Env :=
  syms.foldl (fun ρ s => { ρ with vars := Function.update ρ.vars s (some (init (p.symbols.symbol s).name)) }) ρ

/-- Evaluating an expression node: its value with the environment it leaves, or none for an error. -/
inductive Eval : Env → NodeId → Option (Int32 × Env) → Prop
  | read {ρ : Env} {id : NodeId} {s : SymbolId} {t : Option Ty} :
      p.ast.get? id = some (.expr (.read s) t) → Eval ρ id ((p.load ps ρ s).map (·, ρ))
  | int {ρ : Env} {id : NodeId} {v : Int32} {t : Option Ty} :
      p.ast.get? id = some (.expr (.int v) t) → Eval ρ id (some (v, ρ))
  | neg {ρ : Env} {id x : NodeId} {t : Option Ty} {r : Option (Int32 × Env)} :
      p.ast.get? id = some (.expr (.neg x) t) → Eval ρ x r → Eval ρ id (r.map fun ar => (0 - ar.1, ar.2))
  | arith {ρ ρ₁ ρ₂ : Env} {id l r : NodeId} {op : ArithOp} {t : Option Ty} {a b : Int32} :
      p.ast.get? id = some (.expr (.arith op l r) t) → Eval ρ l (some (a, ρ₁)) → Eval ρ₁ r (some (b, ρ₂)) →
      Eval ρ id ((op.apply a b).map (·, ρ₂))
  | arithLeft {ρ : Env} {id l r : NodeId} {op : ArithOp} {t : Option Ty} :
      p.ast.get? id = some (.expr (.arith op l r) t) → Eval ρ l none → Eval ρ id none
  | arithRight {ρ ρ₁ : Env} {id l r : NodeId} {op : ArithOp} {t : Option Ty} {a : Int32} :
      p.ast.get? id = some (.expr (.arith op l r) t) → Eval ρ l (some (a, ρ₁)) → Eval ρ₁ r none → Eval ρ id none
  | cmp {ρ ρ₁ ρ₂ : Env} {id l r : NodeId} {op : CmpOp} {t : Option Ty} {a b : Int32} :
      p.ast.get? id = some (.expr (.cmp op l r) t) → Eval ρ l (some (a, ρ₁)) → Eval ρ₁ r (some (b, ρ₂)) →
      Eval ρ id (some (if op.holds a b then 1 else 0, ρ₂))
  | cmpLeft {ρ : Env} {id l r : NodeId} {op : CmpOp} {t : Option Ty} :
      p.ast.get? id = some (.expr (.cmp op l r) t) → Eval ρ l none → Eval ρ id none
  | cmpRight {ρ ρ₁ : Env} {id l r : NodeId} {op : CmpOp} {t : Option Ty} {a : Int32} :
      p.ast.get? id = some (.expr (.cmp op l r) t) → Eval ρ l (some (a, ρ₁)) → Eval ρ₁ r none → Eval ρ id none
  | assign {ρ ρ₁ : Env} {id x : NodeId} {s : SymbolId} {t : Option Ty} {a : Int32} :
      p.ast.get? id = some (.expr (.assign s x) t) → Eval ρ x (some (a, ρ₁)) →
      Eval ρ id ((p.store ps ρ₁ s a).map (a, ·))
  | assignErr {ρ : Env} {id x : NodeId} {s : SymbolId} {t : Option Ty} :
      p.ast.get? id = some (.expr (.assign s x) t) → Eval ρ x none → Eval ρ id none

/-- Evaluating node `id` from `ρ` evaluates node `x` to `a` on its way: `x` is `id` itself, or a node the evaluation of
one of its operands passes, each operand evaluated from the environment the operands before it leave. -/
inductive Visits : Env → NodeId → NodeId → Int32 → Prop
  | self {ρ ρ' : Env} {id : NodeId} {a : Int32} : p.Eval ps ρ id (some (a, ρ')) → Visits ρ id id a
  | neg {ρ : Env} {id x y : NodeId} {t : Option Ty} {a : Int32} :
      p.ast.get? id = some (.expr (.neg x) t) → Visits ρ x y a → Visits ρ id y a
  | arithLeft {ρ : Env} {id l r y : NodeId} {op : ArithOp} {t : Option Ty} {a : Int32} :
      p.ast.get? id = some (.expr (.arith op l r) t) → Visits ρ l y a → Visits ρ id y a
  | arithRight {ρ ρ₁ : Env} {id l r y : NodeId} {op : ArithOp} {t : Option Ty} {a b : Int32} :
      p.ast.get? id = some (.expr (.arith op l r) t) → p.Eval ps ρ l (some (b, ρ₁)) → Visits ρ₁ r y a → Visits ρ id y a
  | cmpLeft {ρ : Env} {id l r y : NodeId} {op : CmpOp} {t : Option Ty} {a : Int32} :
      p.ast.get? id = some (.expr (.cmp op l r) t) → Visits ρ l y a → Visits ρ id y a
  | cmpRight {ρ ρ₁ : Env} {id l r y : NodeId} {op : CmpOp} {t : Option Ty} {a b : Int32} :
      p.ast.get? id = some (.expr (.cmp op l r) t) → p.Eval ps ρ l (some (b, ρ₁)) → Visits ρ₁ r y a → Visits ρ id y a
  | assign {ρ : Env} {id x y : NodeId} {s : SymbolId} {t : Option Ty} {a : Int32} :
      p.ast.get? id = some (.expr (.assign s x) t) → Visits ρ x y a → Visits ρ id y a

/-- Running a part of a body, with `init` giving what the storage of each local starts with. -/
inductive Exec (init : String → Int32) : Env → Code → Outcome → Prop
  | expr {ρ ρ' : Env} {id : NodeId} {e : Expr} {t : Option Ty} {a : Int32} :
      p.ast.get? id = some (.expr e t) → p.Eval ps ρ id (some (a, ρ')) → Exec init ρ (.node id) (.normal ρ')
  | exprErr {ρ : Env} {id : NodeId} {e : Expr} {t : Option Ty} :
      p.ast.get? id = some (.expr e t) → p.Eval ps ρ id none → Exec init ρ (.node id) .error
  | declare {ρ : Env} {id : NodeId} {syms : List SymbolId} :
      p.ast.get? id = some (.stmt (.declare syms)) → Exec init ρ (.node id) (.normal (p.declareVars init ρ syms))
  | eval {ρ ρ' : Env} {id e : NodeId} {a : Int32} :
      p.ast.get? id = some (.stmt (.eval e)) → p.Eval ps ρ e (some (a, ρ')) → Exec init ρ (.node id) (.normal ρ')
  | evalErr {ρ : Env} {id e : NodeId} :
      p.ast.get? id = some (.stmt (.eval e)) → p.Eval ps ρ e none → Exec init ρ (.node id) .error
  | ite {ρ ρ₁ : Env} {id c t : NodeId} {e : Option NodeId} {a : Int32} {o : Outcome} :
      p.ast.get? id = some (.stmt (.ite c t e)) → p.Eval ps ρ c (some (a, ρ₁)) → a ≠ 0 → Exec init ρ₁ (.node t) o →
      Exec init ρ (.node id) o
  | iteElse {ρ ρ₁ : Env} {id c t : NodeId} {e : Option NodeId} {o : Outcome} :
      p.ast.get? id = some (.stmt (.ite c t e)) → p.Eval ps ρ c (some (0, ρ₁)) → Exec init ρ₁ (.seq e.toList) o →
      Exec init ρ (.node id) o
  | iteErr {ρ : Env} {id c t : NodeId} {e : Option NodeId} :
      p.ast.get? id = some (.stmt (.ite c t e)) → p.Eval ps ρ c none → Exec init ρ (.node id) .error
  | whileLoop {ρ : Env} {id c b : NodeId} {o : Outcome} :
      p.ast.get? id = some (.stmt (.whileLoop c b)) → Exec init ρ (.loop c none b) o → Exec init ρ (.node id) o
  | doLoop {ρ ρ₁ ρ₂ : Env} {id b c : NodeId} {a : Int32} {o : Outcome} :
      p.ast.get? id = some (.stmt (.doLoop b c)) → Exec init ρ (.node b) (.normal ρ₁) →
      p.Eval ps ρ₁ c (some (a, ρ₂)) → a ≠ 0 → Exec init ρ₂ (.node id) o → Exec init ρ (.node id) o
  | doExit {ρ ρ₁ ρ₂ : Env} {id b c : NodeId} :
      p.ast.get? id = some (.stmt (.doLoop b c)) → Exec init ρ (.node b) (.normal ρ₁) →
      p.Eval ps ρ₁ c (some (0, ρ₂)) → Exec init ρ (.node id) (.normal ρ₂)
  | doErr {ρ ρ₁ : Env} {id b c : NodeId} :
      p.ast.get? id = some (.stmt (.doLoop b c)) → Exec init ρ (.node b) (.normal ρ₁) → p.Eval ps ρ₁ c none →
      Exec init ρ (.node id) .error
  | doBreak {ρ : Env} {id b c : NodeId} {o : Outcome} :
      p.ast.get? id = some (.stmt (.doLoop b c)) → Exec init ρ (.node b) o → o.Abrupt → Exec init ρ (.node id) o
  | forLoop {ρ ρ₁ : Env} {id i c s b : NodeId} {a : Int32} {o : Outcome} :
      p.ast.get? id = some (.stmt (.forLoop i c s b)) → p.Eval ps ρ i (some (a, ρ₁)) →
      Exec init ρ₁ (.loop c (some s) b) o → Exec init ρ (.node id) o
  | forErr {ρ : Env} {id i c s b : NodeId} :
      p.ast.get? id = some (.stmt (.forLoop i c s b)) → p.Eval ps ρ i none → Exec init ρ (.node id) .error
  | ret {ρ ρ₁ : Env} {id x : NodeId} {a : Int32} :
      p.ast.get? id = some (.stmt (.ret x)) → p.Eval ps ρ x (some (a, ρ₁)) → Exec init ρ (.node id) (.ret a ρ₁)
  | retErr {ρ : Env} {id x : NodeId} :
      p.ast.get? id = some (.stmt (.ret x)) → p.Eval ps ρ x none → Exec init ρ (.node id) .error
  | block {ρ : Env} {id : NodeId} {items : List NodeId} {o : Outcome} :
      p.ast.get? id = some (.stmt (.block items)) → Exec init ρ (.seq items) o → Exec init ρ (.node id) o
  | nil {ρ : Env} : Exec init ρ (.seq []) (.normal ρ)
  | cons {ρ ρ₁ : Env} {i : NodeId} {is : List NodeId} {o : Outcome} :
      Exec init ρ (.node i) (.normal ρ₁) → Exec init ρ₁ (.seq is) o → Exec init ρ (.seq (i :: is)) o
  | consBreak {ρ : Env} {i : NodeId} {is : List NodeId} {o : Outcome} :
      Exec init ρ (.node i) o → o.Abrupt → Exec init ρ (.seq (i :: is)) o
  | loopExit {ρ ρ₁ : Env} {c b : NodeId} {st : Option NodeId} :
      p.Eval ps ρ c (some (0, ρ₁)) → Exec init ρ (.loop c st b) (.normal ρ₁)
  | loopErr {ρ : Env} {c b : NodeId} {st : Option NodeId} :
      p.Eval ps ρ c none → Exec init ρ (.loop c st b) .error
  | loopNext {ρ ρ₁ ρ₂ ρ₃ : Env} {c b : NodeId} {st : Option NodeId} {a : Int32} {o : Outcome} :
      p.Eval ps ρ c (some (a, ρ₁)) → a ≠ 0 → Exec init ρ₁ (.node b) (.normal ρ₂) →
      Exec init ρ₂ (.seq st.toList) (.normal ρ₃) → Exec init ρ₃ (.loop c st b) o → Exec init ρ (.loop c st b) o
  | loopBreak {ρ ρ₁ : Env} {c b : NodeId} {st : Option NodeId} {a : Int32} {o : Outcome} :
      p.Eval ps ρ c (some (a, ρ₁)) → a ≠ 0 → Exec init ρ₁ (.node b) o → o.Abrupt → Exec init ρ (.loop c st b) o
  | loopStepBreak {ρ ρ₁ ρ₂ : Env} {c b : NodeId} {st : Option NodeId} {a : Int32} {o : Outcome} :
      p.Eval ps ρ c (some (a, ρ₁)) → a ≠ 0 → Exec init ρ₁ (.node b) (.normal ρ₂) → Exec init ρ₂ (.seq st.toList) o →
      o.Abrupt → Exec init ρ (.loop c st b) o

/-- A function with parameters `ps` and body `b`, called with arguments `args` on globals `globals`, returns `v`
leaving globals `G`: its body returns `v`, or ends normally and the function returns zero. -/
def Returns (init : String → Int32) (b : NodeId) (args : List Int32) (globals : String → Int32) (v : Int32)
    (G : String → Int32) : Prop :=
  ∃ o, p.Exec ps init (Env.entry ps args globals) (.node b) o ∧ o.result = some (v, G)

end Program

/-! ## Inversion: what each form of node evaluates by -/

namespace Program

variable {p : Program} {ps : List SymbolId} {ρ : Env} {id : NodeId} {t : Option Ty} {r : Option (Int32 × Env)}

/-- A variable read evaluates to the variable's value, and fails where it has none. -/
theorem Eval.read_inv {s : SymbolId} (hn : p.ast.get? id = some (.expr (.read s) t)) (h : p.Eval ps ρ id r) :
    r = (p.load ps ρ s).map (·, ρ) := by
  cases h <;> simp_all

/-- A constant evaluates to itself. -/
theorem Eval.int_inv {v : Int32} (hn : p.ast.get? id = some (.expr (.int v) t)) (h : p.Eval ps ρ id r) :
    r = some (v, ρ) := by
  cases h <;> simp_all

/-- A negation evaluates its operand and subtracts it from zero. -/
theorem Eval.neg_inv {x : NodeId} (hn : p.ast.get? id = some (.expr (.neg x) t)) (h : p.Eval ps ρ id r) :
    ∃ r₁, p.Eval ps ρ x r₁ ∧ r = r₁.map fun ar => (0 - ar.1, ar.2) := by
  cases h with
  | neg hn' h₁ =>
    rw [hn] at hn'
    cases hn'
    exact ⟨_, h₁, rfl⟩
  | _ => simp_all

/-- An arithmetic node evaluates its left operand, then its right one from where the left left off, then applies the
operation; it fails where either operand or the operation does. -/
theorem Eval.arith_inv {op : ArithOp} {l r' : NodeId} (hn : p.ast.get? id = some (.expr (.arith op l r') t))
    (h : p.Eval ps ρ id r) :
    (∃ a ρ₁ b ρ₂, p.Eval ps ρ l (some (a, ρ₁)) ∧ p.Eval ps ρ₁ r' (some (b, ρ₂)) ∧ r = (op.apply a b).map (·, ρ₂)) ∨
    (p.Eval ps ρ l none ∧ r = none) ∨ (∃ a ρ₁, p.Eval ps ρ l (some (a, ρ₁)) ∧ p.Eval ps ρ₁ r' none ∧ r = none) := by
  cases h with
  | arith hn' h₁ h₂ =>
    rw [hn] at hn'
    cases hn'
    exact .inl ⟨_, _, _, _, h₁, h₂, rfl⟩
  | arithLeft hn' h₁ =>
    rw [hn] at hn'
    cases hn'
    exact .inr (.inl ⟨h₁, rfl⟩)
  | arithRight hn' h₁ h₂ =>
    rw [hn] at hn'
    cases hn'
    exact .inr (.inr ⟨_, _, h₁, h₂, rfl⟩)
  | _ => simp_all

/-- A comparison evaluates its operands left to right and is one or zero; it fails where either operand does. -/
theorem Eval.cmp_inv {op : CmpOp} {l r' : NodeId} (hn : p.ast.get? id = some (.expr (.cmp op l r') t))
    (h : p.Eval ps ρ id r) :
    (∃ a ρ₁ b ρ₂, p.Eval ps ρ l (some (a, ρ₁)) ∧ p.Eval ps ρ₁ r' (some (b, ρ₂)) ∧
      r = some (if op.holds a b then 1 else 0, ρ₂)) ∨
    (p.Eval ps ρ l none ∧ r = none) ∨ (∃ a ρ₁, p.Eval ps ρ l (some (a, ρ₁)) ∧ p.Eval ps ρ₁ r' none ∧ r = none) := by
  cases h with
  | cmp hn' h₁ h₂ =>
    rw [hn] at hn'
    cases hn'
    exact .inl ⟨_, _, _, _, h₁, h₂, rfl⟩
  | cmpLeft hn' h₁ =>
    rw [hn] at hn'
    cases hn'
    exact .inr (.inl ⟨h₁, rfl⟩)
  | cmpRight hn' h₁ h₂ =>
    rw [hn] at hn'
    cases hn'
    exact .inr (.inr ⟨_, _, h₁, h₂, rfl⟩)
  | _ => simp_all

/-- An assignment evaluates its value and stores it; it fails where the value or the store does. -/
theorem Eval.assign_inv {s : SymbolId} {x : NodeId} (hn : p.ast.get? id = some (.expr (.assign s x) t))
    (h : p.Eval ps ρ id r) :
    (∃ a ρ₁, p.Eval ps ρ x (some (a, ρ₁)) ∧ r = (p.store ps ρ₁ s a).map (a, ·)) ∨ (p.Eval ps ρ x none ∧ r = none) := by
  cases h with
  | assign hn' h₁ =>
    rw [hn] at hn'
    cases hn'
    exact .inl ⟨_, _, h₁, rfl⟩
  | assignErr hn' h₁ =>
    rw [hn] at hn'
    cases hn'
    exact .inr ⟨h₁, rfl⟩
  | _ => simp_all

/-- Only expression nodes evaluate. -/
theorem Eval.node (h : p.Eval ps ρ id r) : ∃ e t, p.ast.get? id = some (.expr e t) := by
  cases h <;> exact ⟨_, _, by assumption⟩

/-- An expression evaluates in at most one way. -/
theorem Eval.det {r' : Option (Int32 × Env)} (h : p.Eval ps ρ id r) (h' : p.Eval ps ρ id r') : r = r' := by
  induction h generalizing r' with
  | read hn => exact (Eval.read_inv hn h').symm
  | int hn => exact (Eval.int_inv hn h').symm
  | neg hn _ ih =>
    obtain ⟨r₁, e₁, rfl⟩ := Eval.neg_inv hn h'
    rw [ih e₁]
  | arith hn _ _ ih₁ ih₂ =>
    rcases Eval.arith_inv hn h' with ⟨a, ρ₁, b, ρ₂, e₁, e₂, rfl⟩ | ⟨e₁, rfl⟩ | ⟨a, ρ₁, e₁, e₂, rfl⟩
    · cases ih₁ e₁
      cases ih₂ e₂
      rfl
    · cases ih₁ e₁
    · cases ih₁ e₁
      cases ih₂ e₂
  | arithLeft hn _ ih =>
    rcases Eval.arith_inv hn h' with ⟨a, ρ₁, b, ρ₂, e₁, -, rfl⟩ | ⟨-, rfl⟩ | ⟨-, -, -, -, rfl⟩
    · cases ih e₁
    · rfl
    · rfl
  | arithRight hn _ _ ih₁ ih₂ =>
    rcases Eval.arith_inv hn h' with ⟨a, ρ₁, b, ρ₂, e₁, e₂, rfl⟩ | ⟨e₁, rfl⟩ | ⟨-, -, -, -, rfl⟩
    · cases ih₁ e₁
      cases ih₂ e₂
    · cases ih₁ e₁
    · rfl
  | cmp hn _ _ ih₁ ih₂ =>
    rcases Eval.cmp_inv hn h' with ⟨a, ρ₁, b, ρ₂, e₁, e₂, rfl⟩ | ⟨e₁, rfl⟩ | ⟨a, ρ₁, e₁, e₂, rfl⟩
    · cases ih₁ e₁
      cases ih₂ e₂
      rfl
    · cases ih₁ e₁
    · cases ih₁ e₁
      cases ih₂ e₂
  | cmpLeft hn _ ih =>
    rcases Eval.cmp_inv hn h' with ⟨a, ρ₁, b, ρ₂, e₁, -, rfl⟩ | ⟨-, rfl⟩ | ⟨-, -, -, -, rfl⟩
    · cases ih e₁
    · rfl
    · rfl
  | cmpRight hn _ _ ih₁ ih₂ =>
    rcases Eval.cmp_inv hn h' with ⟨a, ρ₁, b, ρ₂, e₁, e₂, rfl⟩ | ⟨e₁, rfl⟩ | ⟨-, -, -, -, rfl⟩
    · cases ih₁ e₁
      cases ih₂ e₂
    · cases ih₁ e₁
    · rfl
  | assign hn _ ih =>
    rcases Eval.assign_inv hn h' with ⟨a, ρ₁, e₁, rfl⟩ | ⟨e₁, rfl⟩
    · cases ih e₁
      rfl
    · cases ih e₁
  | assignErr hn _ ih =>
    rcases Eval.assign_inv hn h' with ⟨a, ρ₁, e₁, rfl⟩ | ⟨-, rfl⟩
    · cases ih e₁
    · rfl

/-! ## Inversion: what an evaluation passes -/

variable {y : NodeId} {a : Int32}

/-- A negation passes itself or what its operand passes. -/
theorem Visits.neg_inv {x : NodeId} (hn : p.ast.get? id = some (.expr (.neg x) t)) (h : p.Visits ps ρ id y a) :
    (y = id ∧ ∃ ρ', p.Eval ps ρ id (some (a, ρ'))) ∨ p.Visits ps ρ x y a := by
  cases h with
  | self he => exact .inl ⟨rfl, _, he⟩
  | neg hn' hv =>
    rw [hn] at hn'
    cases hn'
    exact .inr hv
  | _ => simp_all

/-- An assignment passes itself or what its value passes. -/
theorem Visits.assign_inv {s : SymbolId} {x : NodeId} (hn : p.ast.get? id = some (.expr (.assign s x) t))
    (h : p.Visits ps ρ id y a) : (y = id ∧ ∃ ρ', p.Eval ps ρ id (some (a, ρ'))) ∨ p.Visits ps ρ x y a := by
  cases h with
  | self he => exact .inl ⟨rfl, _, he⟩
  | assign hn' hv =>
    rw [hn] at hn'
    cases hn'
    exact .inr hv
  | _ => simp_all

/-- An arithmetic node passes itself, what its left operand passes, or what its right operand passes from where the left
left off. -/
theorem Visits.arith_inv {op : ArithOp} {l r' : NodeId} (hn : p.ast.get? id = some (.expr (.arith op l r') t))
    (h : p.Visits ps ρ id y a) :
    (y = id ∧ ∃ ρ', p.Eval ps ρ id (some (a, ρ'))) ∨ p.Visits ps ρ l y a ∨
      ∃ b ρ₁, p.Eval ps ρ l (some (b, ρ₁)) ∧ p.Visits ps ρ₁ r' y a := by
  cases h with
  | self he => exact .inl ⟨rfl, _, he⟩
  | arithLeft hn' hv =>
    rw [hn] at hn'
    cases hn'
    exact .inr (.inl hv)
  | arithRight hn' he hv =>
    rw [hn] at hn'
    cases hn'
    exact .inr (.inr ⟨_, _, he, hv⟩)
  | _ => simp_all

/-- A comparison passes itself, what its left operand passes, or what its right operand passes from where the left left
off. -/
theorem Visits.cmp_inv {op : CmpOp} {l r' : NodeId} (hn : p.ast.get? id = some (.expr (.cmp op l r') t))
    (h : p.Visits ps ρ id y a) :
    (y = id ∧ ∃ ρ', p.Eval ps ρ id (some (a, ρ'))) ∨ p.Visits ps ρ l y a ∨
      ∃ b ρ₁, p.Eval ps ρ l (some (b, ρ₁)) ∧ p.Visits ps ρ₁ r' y a := by
  cases h with
  | self he => exact .inl ⟨rfl, _, he⟩
  | cmpLeft hn' hv =>
    rw [hn] at hn'
    cases hn'
    exact .inr (.inl hv)
  | cmpRight hn' he hv =>
    rw [hn] at hn'
    cases hn'
    exact .inr (.inr ⟨_, _, he, hv⟩)
  | _ => simp_all

/-! ## Inversion: what each instruction runs by -/

variable {init : String → Int32} {o : Outcome}

/-- An expression in a statement position ends normally where it evaluates, and fails where it fails. -/
theorem Exec.expr_inv {e : Expr} (hn : p.ast.get? id = some (.expr e t)) (h : p.Exec ps init ρ (.node id) o) :
    (∃ a ρ', p.Eval ps ρ id (some (a, ρ')) ∧ o = .normal ρ') ∨ (p.Eval ps ρ id none ∧ o = .error) := by
  cases h with
  | expr _ he => exact .inl ⟨_, _, he, rfl⟩
  | exprErr _ he => exact .inr ⟨he, rfl⟩
  | _ => simp_all

/-- A declaration gives its locals their starting contents and ends normally. -/
theorem Exec.declare_inv {syms : List SymbolId} (hn : p.ast.get? id = some (.stmt (.declare syms)))
    (h : p.Exec ps init ρ (.node id) o) : o = .normal (p.declareVars init ρ syms) := by
  cases h with
  | declare hn' =>
    rw [hn] at hn'
    cases hn'
    rfl
  | _ => simp_all

/-- An expression statement ends normally where its expression evaluates, and fails where it fails. -/
theorem Exec.eval_inv {e : NodeId} (hn : p.ast.get? id = some (.stmt (.eval e))) (h : p.Exec ps init ρ (.node id) o) :
    (∃ a ρ', p.Eval ps ρ e (some (a, ρ')) ∧ o = .normal ρ') ∨ (p.Eval ps ρ e none ∧ o = .error) := by
  cases h with
  | eval hn' he =>
    rw [hn] at hn'
    cases hn'
    exact .inl ⟨_, _, he, rfl⟩
  | evalErr hn' he =>
    rw [hn] at hn'
    cases hn'
    exact .inr ⟨he, rfl⟩
  | _ => simp_all

/-- A choice runs the then arm on a test that is not zero, the else arm, if any, on zero, and fails where the test does.
-/
theorem Exec.ite_inv {c th : NodeId} {el : Option NodeId} (hn : p.ast.get? id = some (.stmt (.ite c th el)))
    (h : p.Exec ps init ρ (.node id) o) :
    (∃ a ρ₁, p.Eval ps ρ c (some (a, ρ₁)) ∧ a ≠ 0 ∧ p.Exec ps init ρ₁ (.node th) o) ∨
    (∃ ρ₁, p.Eval ps ρ c (some (0, ρ₁)) ∧ p.Exec ps init ρ₁ (.seq el.toList) o) ∨
    (p.Eval ps ρ c none ∧ o = .error) := by
  cases h with
  | ite hn' hc ha hb =>
    rw [hn] at hn'
    cases hn'
    exact .inl ⟨_, _, hc, ha, hb⟩
  | iteElse hn' hc hb =>
    rw [hn] at hn'
    cases hn'
    exact .inr (.inl ⟨_, hc, hb⟩)
  | iteErr hn' hc =>
    rw [hn] at hn'
    cases hn'
    exact .inr (.inr ⟨hc, rfl⟩)
  | _ => simp_all

/-- A while loop runs as the loop from its test. -/
theorem Exec.while_inv {c b : NodeId} (hn : p.ast.get? id = some (.stmt (.whileLoop c b)))
    (h : p.Exec ps init ρ (.node id) o) : p.Exec ps init ρ (.loop c none b) o := by
  cases h with
  | whileLoop hn' hl =>
    rw [hn] at hn'
    cases hn'
    exact hl
  | _ => simp_all

/-- A for loop evaluates its start expression, then runs as the loop from its test with its step. -/
theorem Exec.for_inv {i c s b : NodeId} (hn : p.ast.get? id = some (.stmt (.forLoop i c s b)))
    (h : p.Exec ps init ρ (.node id) o) :
    (∃ a ρ₁, p.Eval ps ρ i (some (a, ρ₁)) ∧ p.Exec ps init ρ₁ (.loop c (some s) b) o) ∨
    (p.Eval ps ρ i none ∧ o = .error) := by
  cases h with
  | forLoop hn' hi hl =>
    rw [hn] at hn'
    cases hn'
    exact .inl ⟨_, _, hi, hl⟩
  | forErr hn' hi =>
    rw [hn] at hn'
    cases hn'
    exact .inr ⟨hi, rfl⟩
  | _ => simp_all

/-- A return returns the value of its expression, and fails where it fails. -/
theorem Exec.ret_inv {x : NodeId} (hn : p.ast.get? id = some (.stmt (.ret x))) (h : p.Exec ps init ρ (.node id) o) :
    (∃ a ρ₁, p.Eval ps ρ x (some (a, ρ₁)) ∧ o = .ret a ρ₁) ∨ (p.Eval ps ρ x none ∧ o = .error) := by
  cases h with
  | ret hn' hx =>
    rw [hn] at hn'
    cases hn'
    exact .inl ⟨_, _, hx, rfl⟩
  | retErr hn' hx =>
    rw [hn] at hn'
    cases hn'
    exact .inr ⟨hx, rfl⟩
  | _ => simp_all

/-- A block runs as its items in order. -/
theorem Exec.block_inv {items : List NodeId} (hn : p.ast.get? id = some (.stmt (.block items)))
    (h : p.Exec ps init ρ (.node id) o) : p.Exec ps init ρ (.seq items) o := by
  cases h with
  | block hn' hs =>
    rw [hn] at hn'
    cases hn'
    exact hs
  | _ => simp_all

/-- No items end normally. -/
theorem Exec.nil_inv (h : p.Exec ps init ρ (.seq []) o) : o = .normal ρ := by
  cases h
  rfl

/-- Items run the first, then the rest if it ended normally; otherwise they end as the first did. -/
theorem Exec.cons_inv {i : NodeId} {is : List NodeId} (h : p.Exec ps init ρ (.seq (i :: is)) o) :
    (∃ ρ₁, p.Exec ps init ρ (.node i) (.normal ρ₁) ∧ p.Exec ps init ρ₁ (.seq is) o) ∨
    (p.Exec ps init ρ (.node i) o ∧ o.Abrupt) := by
  cases h with
  | cons h₁ h₂ => exact .inl ⟨_, h₁, h₂⟩
  | consBreak h₁ ha => exact .inr ⟨h₁, ha⟩

/-- A block of one item runs as the item. -/
theorem Exec.single_inv {i : NodeId} (h : p.Exec ps init ρ (.seq [i]) o) : p.Exec ps init ρ (.node i) o := by
  rcases Exec.cons_inv h with ⟨ρ₁, h₁, h₂⟩ | ⟨h₁, -⟩
  · rw [Exec.nil_inv h₂]
    exact h₁
  · exact h₁

/-- An item runs as the block of that one item. -/
theorem Exec.single {i : NodeId} (h : p.Exec ps init ρ (.node i) o) : p.Exec ps init ρ (.seq [i]) o := by
  cases o with
  | normal ρ₁ => exact .cons h .nil
  | ret v ρ₁ => exact .consBreak h trivial
  | error => exact .consBreak h trivial

end Program

end Lowering
