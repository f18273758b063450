import Lowering.Proofs.WellTyped

/-!
# Registers are numbered per unit

A register is taken as the next of its base, its counter going up by one, and the instruction that defines it is
written at once. The registers of each base that a listing defines are therefore numbered from one, in the order they
are defined, without gaps or repeats (`Typing.numbered`). The counters belong to the generator, not to a function: a
unit's second function goes on numbering where the first one stopped, so its registers of a base need not start at
one (`compile_registers_numbered`).
-/

namespace Lowering

open Ir Generator

namespace Program

variable {p : Program}

/-- A unit that compiles is the rendering of the lines of a generator with the typing invariant: the roots, then the
constants and runtime prototypes still owed, are typed runs from the empty generator. -/
theorem typing_of_compile {layout : Layout} {s : String} (hty : p.TypesRecorded) (h : p.compile layout = .ok s) :
    ∃ g : Generator, s = render layout.indentation g.lines.toList ∧ p.Typing g := by
  obtain ⟨g, hr, rfl⟩ := runs_of_compile h
  have t₀ := typed_roots hty hr (typing_new layout)
  have t₁ : p.Typed False (fun _ => True) (fun _ => True) g g.withConstantsWritten :=
    typed_withConstantsWritten g t₀.typing fun h => h
  have t := t₀.trans (t₁.trans (typed_withRuntimeWritten _ t₁.typing fun h => h))
  exact ⟨_, by rw [finish_eq, t.layout]; rfl, t.typing⟩

/-- A unit that compiles, under any layout, is the rendering of a listing in which, for every base, the registers of
that base are defined in the order base.1, base.2, ..., base.k, without gaps or repeats, across the whole unit. -/
theorem compile_registers_numbered {layout : Layout} {s : String} (hty : p.TypesRecorded)
    (h : p.compile layout = .ok s) :
    ∃ lines : List Line, s = render layout.indentation lines ∧
      ∀ b, ∃ k, indicesOf b (defs (lines.flatMap Line.code)) = List.range' 1 k := by
  obtain ⟨g, rfl, hT⟩ := typing_of_compile hty h
  exact ⟨_, rfl, fun b => ⟨_, hT.numbered b⟩⟩

/-- Two functions that each return a sum of two constants: int f () { return 1 + 2; } and
int g () { return 1 + 2; }. -/
def twoSumsUnit : Program where
  symbols := { functions := #[{ name := "f", result := .int, params := [] }, { name := "g", result := .int, params := [] }] }
  ast := { nodes := #[.expr (.int 1) (some .int), .expr (.int 2) (some .int), .expr (.arith .add 0 1) (some .int),
      .stmt (.ret 2), .stmt (.define 0 3), .expr (.int 1) (some .int), .expr (.int 2) (some .int),
      .expr (.arith .add 5 6) (some .int), .stmt (.ret 7), .stmt (.define 1 8)], roots := #[4, 9] }

/-- The text of the unit above: the temporary of the second function is the second of its base. -/
def twoSumsText : String :=
  "define i32 @f() \x7b\nentry:\n  %tmp.1 = add i32 1, 2\n  ret i32 %tmp.1\n\x7d\n\n" ++
    "define i32 @g() \x7b\nentry:\n  %tmp.2 = add i32 1, 2\n  ret i32 %tmp.2\n\x7d\n\n"

/-- Every expression of the unit with two sums has the type its parts give it. -/
theorem twoSumsUnit_typesRecorded : twoSumsUnit.TypesRecorded := by decide

/-- The unit lowered rule by rule: the memo lookups and the register counters are read from the maps' inserts, and
the text is then rendered by the kernel. -/
theorem twoSumsUnit_compile : twoSumsUnit.compile .compact = .ok twoSumsText := by
  have hr : twoSumsUnit.ast.roots.toList = [4, 9] := rfl
  have hs : twoSumsUnit.ast.size = 10 := rfl
  have h0 : twoSumsUnit.ast.get? 0 = some (.expr (.int 1) (some .int)) := rfl
  have h1 : twoSumsUnit.ast.get? 1 = some (.expr (.int 2) (some .int)) := rfl
  have h2 : twoSumsUnit.ast.get? 2 = some (.expr (.arith .add 0 1) (some .int)) := rfl
  have h3 : twoSumsUnit.ast.get? 3 = some (.stmt (.ret 2)) := rfl
  have h4 : twoSumsUnit.ast.get? 4 = some (.stmt (.define 0 3)) := rfl
  have h5 : twoSumsUnit.ast.get? 5 = some (.expr (.int 1) (some .int)) := rfl
  have h6 : twoSumsUnit.ast.get? 6 = some (.expr (.int 2) (some .int)) := rfl
  have h7 : twoSumsUnit.ast.get? 7 = some (.expr (.arith .add 5 6) (some .int)) := rfl
  have h8 : twoSumsUnit.ast.get? 8 = some (.stmt (.ret 7)) := rfl
  have h9 : twoSumsUnit.ast.get? 9 = some (.stmt (.define 1 8)) := rfl
  have hf0 : twoSumsUnit.symbols.signature 0 = { name := "f", result := .int, params := [] } := rfl
  have hf1 : twoSumsUnit.symbols.signature 1 = { name := "g", result := .int, params := [] } := rfl
  unfold compile
  simp only [hr, hs, h0, h1, h2, h3, h4, h5, h6, h7, h8, h9, hf0, hf1, List.forM_eq_forM, List.forM_cons,
    List.forM_nil, List.map_nil, Runs.run_bind, Runs.run_pure, Runs.run_get, Runs.run_modify, walk_succ_emit,
    walk_succ_expr, emitNode, lowerStmt, lowerDefinition, lowerReturn, lowerExpr, lowerForm, valueOf, exprType,
    operandType, isComparison, handOver, ownedIndex, temp, run_write, run_instr, run_terminate, run_fresh, run_remember,
    run_writeBlank, run_freeAll, run_flushConstants, run_declareRuntime, withItem, withBlank, withLabels, withLabel,
    withInstr, withTerminator, withFrees, withFresh, withValue, withConstantsWritten, withRuntimeWritten, withItems,
    nextIndex, Generator.new, Std.HashMap.getElem?_insert, Std.HashMap.getElem?_empty, Std.HashMap.getD_insert,
    Std.HashMap.getD_empty, List.foldl_nil, List.headD_nil, List.take_nil, ne_eq,
    not_true_eq_false, ↓reduceIte, Bool.false_eq_true, reduceCtorEq, and_false, Bool.false_and,
    Bool.not_false, Nat.reduceAdd, Nat.reduceSub, Nat.reduceBEq, beq_self_eq_true]
  decide +kernel

/-- The unit compiles to two functions whose temporaries are numbered across the unit, `%tmp.1` then `%tmp.2`:
every base of the listing is numbered from one without gaps. -/
theorem twoSumsUnit_registers_numbered : twoSumsUnit.TypesRecorded ∧ twoSumsUnit.compile .compact = .ok twoSumsText ∧
    ∃ lines : List Line, twoSumsText = render Layout.compact.indentation lines ∧
      ∀ b, ∃ k, indicesOf b (defs (lines.flatMap Line.code)) = List.range' 1 k :=
  ⟨twoSumsUnit_typesRecorded, twoSumsUnit_compile,
    compile_registers_numbered twoSumsUnit_typesRecorded twoSumsUnit_compile⟩

end Program

end Lowering
