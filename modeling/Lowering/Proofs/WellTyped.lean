import Mathlib.Data.List.Nodup
import Lowering.Proofs.TypedFunctions
import Lowering.Proofs.Blocks

/-!
# Lowered functions are well typed

Each level of the walk lowers nodes by typed runs when the level below does, so every walk does (`typed_walk`). A
unit that compiles is then the rendering of a listing in which every register is defined once, and every function
that a definition with only local nodes in its body wrote is well typed: its operands are read at the types of their
definitions, so truth values only by branches and widenings; its calls pass arguments of the callee's parameter types;
when its body refers only to the function's parameters, its own locals and globals, its stores go to slots of the
stored type; and its returns carry the declared result type exactly when all its return statements return values of
that type. Nothing compares a return statement's type with the function's: a body that returns a string from an
integer function is lowered, to a return at the string's type.
-/

namespace Lowering

open Ir Generator

namespace Program

variable {p : Program} {w : Walk}

/-- An expression node in a statement position covers nothing. -/
theorem covers_expr {id : NodeId} {e : Expr} {ty : Option Ty} {seg : List Item}
    (hn : p.ast.get? id = some (.expr e ty)) : p.Covers id seg := by
  intro d hd
  cases hd with
  | refl => exact ⟨fun syms h => by simp_all, fun x h => by simp_all⟩
  | child hn' hc _ =>
    rw [hn] at hn'
    cases hn'
    simp [Node.stmtChildren] at hc

/-- One level of lowering rules is typed when the walk one level down is. -/
theorem typed_step (hty : p.TypesRecorded) {n : Nat} (hw : (p.walk n).Sound p.EmitTyped p.ExprTyped) :
    (p.walk (n + 1)).Sound p.EmitTyped p.ExprTyped := by
  refine ⟨fun {id g g'} he => ?_, fun h => typed_lowerExpr hty hw.expr h⟩
  rcases runs_emitNode he with ⟨e, t, hn, ⟨-, rfl⟩ | ⟨-, v, h⟩⟩ | ⟨s, hn, h⟩
  · exact fun hT => ⟨.refl hT, fun _ => covers_expr hn⟩
  · intro hT
    obtain ⟨h₁, -⟩ := typed_lowerForm hty hw.expr hn h hT
    exact ⟨h₁.mono (fun _ => trivial) (fun _ h => h) fun _ h => h.elim, fun _ => covers_expr hn⟩
  · cases s with
    | declare syms => exact typed_declare hn h
    | eval e => exact typed_eval hw.expr hn h
    | ite c t e => exact typed_lowerChoice hty hw.expr hw.emit hn h
    | whileLoop c b => exact typed_lowerWhile hty hw.expr hw.emit hn h
    | doLoop b c => exact typed_lowerDo hty hw.expr hw.emit hn h
    | forLoop i c st b => exact typed_lowerFor hty hw.expr hw.emit hn h
    | ret x => exact typed_lowerReturn hty hw.expr hn h
    | block items => exact typed_block hw.emit hn h
    | prototype f => exact typed_prototype hn h
    | define f b => exact typed_lowerDefinition hn hw.emit he

/-- Every walk lowers nodes by typed runs. -/
theorem typed_walk (hty : p.TypesRecorded) (n : Nat) : (p.walk n).Sound p.EmitTyped p.ExprTyped :=
  walk_induction _ _ (fun _ hw => typed_step hty hw) n

/-- Lowering the roots in order is a typed run. -/
theorem typed_roots (hty : p.TypesRecorded) {n : Nat} {roots : List NodeId} {g g' : Generator} {u : Unit}
    (h : Runs (roots.forM (p.walk n).emit) g u g') (hT : p.Typing g) :
    p.Typed False (fun _ => True) (fun _ => True) g g' := by
  induction roots generalizing g with
  | nil =>
    obtain rfl := Runs.forM_nil.mp h
    exact .refl hT
  | cons r roots ih =>
    obtain ⟨g₁, h₁, h₂⟩ := Runs.forM_cons.mp h
    have t₁ : p.Typed False (fun _ => True) (fun _ => True) g g₁ :=
      ((typed_walk hty n).emit h₁ hT).1.mono False.elim (fun _ _ => trivial) fun _ _ => trivial
    exact t₁.trans (ih h₂ t₁.typing)

/-- An empty generator has the invariant: it defines no register and owns and records nothing. -/
theorem typing_new (layout : Layout) : p.Typing (Generator.new layout) where
  counted := by simp [Generator.new, mark]
  distinct := by simp [Generator.new, mark]
  numbered b := by simp [Generator.new, mark, indicesOf, nextIndex]
  owned := by simp [Generator.new]
  values := by simp [Generator.new]

/-- With the registers of a unit defined once each, a well-typed body reads truth values only in branches and
widenings. -/
theorem truthReads_of_typed {Γ : List (Reg × IrTy)} {f : FunctionId} {b : NodeId} {body : List Item}
    (hΓ : (Γ.map Prod.fst).Nodup) (h : p.FunctionTyped Γ f b body) : TruthReads Γ body := by
  intro i r τ hi hu hr
  have hτ : (r, τ) ∈ Γ := h.operands i hi _ hu
  -- a register has one definition, so it is read at the type of that one
  have he : (r, τ) = (r, IrTy.i1) := List.inj_on_of_nodup_map hΓ hτ hr rfl
  obtain rfl : τ = .i1 := (Prod.mk.inj he).2
  exact Instr.uses_i1 hu

/-- The code before the first closing brace is determined. -/
theorem eq_of_append_close {x₁ x₂ z₁ z₂ : List Item} (h₁ : .close ∉ x₁) (h₂ : .close ∉ x₂)
    (h : x₁ ++ .close :: z₁ = x₂ ++ .close :: z₂) : x₁ = x₂ := by
  induction x₁ generalizing x₂ with
  | nil =>
    cases x₂ with
    | nil => rfl
    | cons i x₂ =>
      obtain ⟨rfl, -⟩ := List.cons.inj h
      exact absurd List.mem_cons_self h₂
  | cons i x₁ ih =>
    cases x₂ with
    | nil =>
      obtain ⟨rfl, -⟩ := List.cons.inj h
      exact absurd List.mem_cons_self h₁
    | cons j x₂ =>
      simp only [List.cons_append, List.cons.injEq] at h
      obtain ⟨rfl, h⟩ := h
      rw [ih (fun hm => h₁ (List.mem_cons_of_mem i hm)) (fun hm => h₂ (List.mem_cons_of_mem i hm)) h]

/-- A unit that compiles, under any layout, is the rendering of a listing in which every register is defined once,
and every function, from its head and entry label to its closing brace, is that of a definition of the unit, written
at its place by emitting the definition's node from a generator whose code was the listing before it. When
the body of the definition has only local nodes, the function is well typed, with the registers of the listing, and
reads truth values only in branches and widenings; its returns carry the declared result type exactly when every
return statement of the body returns a value of that type. -/
theorem compile_functions_typed {layout : Layout} {s : String} (hty : p.TypesRecorded)
    (h : p.compile layout = .ok s) :
    ∃ lines : List Line, s = render layout.indentation lines ∧
      ((defs (lines.flatMap Line.code)).map Prod.fst).Nodup ∧
      ∀ pre hdr body post, lines.flatMap Line.code = pre ++ [hdr, .entry] ++ body ++ .close :: post →
        .close ∉ body → ∃ id f b, p.ast.get? id = some (.stmt (.define f b)) ∧ hdr = p.headerOf f ∧
          p.WritesFunction id pre hdr (body ++ .close :: post) ∧
          (p.Within p.Local b → p.FunctionTyped (defs (lines.flatMap Line.code)) f b body ∧
            TruthReads (defs (lines.flatMap Line.code)) body) := by
  obtain ⟨g, hr, rfl⟩ := runs_of_compile h
  have t₀ := typed_roots hty hr (typing_new layout)
  have t₁ : p.Typed False (fun _ => True) (fun _ => True) g g.withConstantsWritten :=
    typed_withConstantsWritten g t₀.typing fun h => h
  have t := t₀.trans (t₁.trans (typed_withRuntimeWritten _ t₁.typing fun h => h))
  have hnew : (Generator.new layout).mark.code = [] := by simp [mark, Generator.new]
  have hall : (Generator.new layout).added g.withConstantsWritten.withRuntimeWritten =
      g.withConstantsWritten.withRuntimeWritten.mark.code := added_of_eq (by rw [hnew]; rfl)
  refine ⟨_, by rw [finish_eq, t.layout]; rfl, t.typing.distinct, fun pre hdr body post hc hb => ?_⟩
  have hc' : (Generator.new layout).added g.withConstantsWritten.withRuntimeWritten =
      (pre ++ [hdr]) ++ .entry :: (body ++ .close :: post) := by
    rw [hall]
    change List.flatMap Line.code _ = _
    rw [hc]
    simp
  obtain ⟨pre', hdr', he, id, f, b, hn, hh, hw, hf⟩ := t.chunks _ _ hc'
  obtain ⟨rfl, hh'⟩ := List.append_inj' he rfl
  obtain rfl : hdr = hdr' := List.singleton_inj.mp hh'
  rw [hnew, List.nil_append] at hw
  refine ⟨id, f, b, hn, hh, hw, fun hl => ?_⟩
  obtain ⟨body', post', hbody, hb', hT⟩ := hf hl
  obtain rfl := eq_of_append_close hb hb' hbody
  exact ⟨hT, truthReads_of_typed t.typing.distinct hT⟩

/-- A function of one parameter that returns a constant, f (int a) { return 7; }: the parameter is spilled to a
slot of its type. -/
def spillUnit : Program where
  symbols :=
    { symbols := #[{ name := "a", ty := .int, flags := { param := true } }]
      functions := #[{ name := "f", result := .int, params := [0] }] }
  ast :=
    { nodes := #[.expr (.int 7) (some .int), .stmt (.ret 0), .stmt (.block [1]), .stmt (.define 0 2)]
      roots := #[3] }

/-- Every expression of the spilling unit has the type its parts give it. -/
theorem spillUnit_typesRecorded : spillUnit.TypesRecorded := by
  intro id e t h
  match id, h with
  | 0, h =>
    obtain ⟨rfl, rfl⟩ : Expr.int 7 = e ∧ Ty.int = t := by simpa [spillUnit, Ast.get?] using h
    rfl
  | 1, h | 2, h | 3, h => simp [spillUnit, Ast.get?] at h
  | _ + 4, h => simp [spillUnit, Ast.get?] at h

/-- The unit compiles to one function, whose parameter is spilled to a slot of its type, and that function is well
typed. -/
theorem spillUnit_functions_typed : spillUnit.TypesRecorded ∧
    spillUnit.compile .compact =
      .ok "define i32 @f(i32 %a) \x7b\nentry:\n  %a.addr = alloca i32, align 4\n  store i32 %a, i32* %a.addr\n  ret i32 7\n\x7d\n\n" ∧
    ∃ lines : List Line,
      "define i32 @f(i32 %a) \x7b\nentry:\n  %a.addr = alloca i32, align 4\n  store i32 %a, i32* %a.addr\n  ret i32 7\n\x7d\n\n" =
        render Layout.compact.indentation lines ∧
      ((defs (lines.flatMap Line.code)).map Prod.fst).Nodup ∧
      ∀ pre hdr body post, lines.flatMap Line.code = pre ++ [hdr, .entry] ++ body ++ .close :: post →
        .close ∉ body → ∃ id f b, spillUnit.ast.get? id = some (.stmt (.define f b)) ∧ hdr = spillUnit.headerOf f ∧
          spillUnit.WritesFunction id pre hdr (body ++ .close :: post) ∧
          (spillUnit.Within spillUnit.Local b → spillUnit.FunctionTyped (defs (lines.flatMap Line.code)) f b body ∧
            TruthReads (defs (lines.flatMap Line.code)) body) :=
  have h := compile_eq_ok (by decide +kernel)
  ⟨spillUnit_typesRecorded, h, compile_functions_typed spillUnit_typesRecorded h⟩

end Program

end Lowering
