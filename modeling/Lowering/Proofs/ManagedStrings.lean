import Lowering.Proofs.OwnedFunctions
import Lowering.Proofs.Keeps
import Lowering.Proofs.WellTyped

/-!
# Compiled functions manage their strings

Each level of the walk lowers nodes by runs that keep string ownership when the level below does, and writes the
code of a body for a node with only local nodes (`owned_walk`). A unit that compiles is then the rendering of a
listing in which every function that a definition with only local nodes in its body wrote keeps the rules of string
ownership along every path from its entry label to a return (`compile_strings_managed`): each string it makes is
freed once or returned, only such strings are freed, and a string function returns a string it owns, a copy made
just before the return, or null. Null is returned only by the return the epilogue adds when a string function's body
falls off its end.
-/

namespace Lowering

open Ir Generator

namespace Program

variable {p : Program} {w : Walk}

/-- One level of lowering rules keeps string ownership when the walk one level down does, and writes the code of a
body for every node with only local nodes. -/
theorem owned_step {n : Nat} (hw : (p.walk n).Sound p.EmitOwned p.ExprOwned)
    (hs : (p.walk n).Sound p.BodySpan ExprSpan) : (p.walk (n + 1)).Sound p.EmitOwned p.ExprOwned := by
  refine ⟨fun {id g g'} he => ?_, fun h => owned_lowerExpr hw.expr h⟩
  rcases runs_emitNode he with ⟨e, t, hn, ⟨-, rfl⟩ | ⟨-, v, h⟩⟩ | ⟨s, hn, h⟩
  · exact fun hT => ⟨[], .refl hT⟩
  · intro hT
    obtain ⟨M, h₁⟩ := owned_lowerForm hw.expr h hT
    exact ⟨M, h₁.mono (fun _ => trivial) fun _ _ hx => hx⟩
  · cases s with
    | declare syms => exact owned_declare hn h
    | eval e => exact owned_eval hw.expr h
    | ite c t e => exact owned_lowerChoice hw.expr hw.emit hn h
    | whileLoop c b => exact owned_lowerWhile hw.expr hw.emit hn h
    | doLoop b c => exact owned_lowerDo hw.expr hw.emit hn h
    | forLoop i c st b => exact owned_lowerFor hw.expr hw.emit hn h
    | ret x => exact owned_lowerReturn hw.expr h
    | block items => exact owned_block hw.emit hn h
    | prototype f => exact owned_prototype hn h
    | define f b => exact owned_lowerDefinition hn hw.emit hs.emit he

/-- Every walk lowers nodes by runs that keep string ownership. -/
theorem owned_walk (n : Nat) : (p.walk n).Sound p.EmitOwned p.ExprOwned := by
  induction n with
  | zero => exact ⟨fun h => absurd h Runs.throw_false, fun h => absurd h Runs.throw_false⟩
  | succ n ih => exact owned_step ih (bodySpans_walk n)

/-- Lowering the roots in order keeps string ownership, outside any function body. -/
theorem owned_roots {n : Nat} {roots : List NodeId} {g g' : Generator} {u : Unit}
    (h : Runs (roots.forM (p.walk n).emit) g u g') (hT : g.Owning) : p.Owned False [] [] g g' := by
  induction roots generalizing g with
  | nil =>
    obtain rfl := Runs.forM_nil.mp h
    exact .refl hT
  | cons r roots ih =>
    obtain ⟨g₁, h₁, h₂⟩ := Runs.forM_cons.mp h
    obtain ⟨M, t₁⟩ := (owned_walk n).emit h₁ hT
    have t₁ : p.Owned False [] [] g g₁ := (t₁.mono False.elim fun h => h.elim).relabel fun h => h.elim
    exact t₁.trans (ih h₂ t₁.owning)

/-- An empty generator owns no string and has no scope open. -/
theorem owning_new (layout : Layout) : (Generator.new layout).Owning := .of_nil rfl rfl

/-- The layout a unit is compiled under is the one its text is rendered with. -/
theorem layout_of_roots {layout : Layout} {g : Generator}
    (h : Runs (p.ast.roots.toList.forM (p.walk (p.ast.size + 1)).emit) (Generator.new layout) () g) :
    g.withConstantsWritten.withRuntimeWritten.layout = layout := by
  have hP : p.StepsKeep fun g => g.layout = layout := stepsKeep_layout layout
  have hk : Keeps (fun g => g.layout = layout) (p.ast.roots.toList.forM (p.walk (p.ast.size + 1)).emit) :=
    keeps_forM (keeps_walk hP _).emit
  have hg := hk.run (show (Generator.new layout).layout = layout from rfl)
  rw [show (p.ast.roots.toList.forM (p.walk (p.ast.size + 1)).emit).run.run (Generator.new layout) = (.ok (), g) from h]
    at hg
  exact hP.withRuntimeWritten (hP.flush g hg)

/-- A unit that compiles, under any layout, is the rendering of a listing in which every function, from its head and
entry label to its closing brace, is that of a definition of the unit, written at its place by emitting the
definition's node from a generator whose code was the listing before it. When the body of the definition has only
local nodes, every path of the function from its entry label to a return keeps the rules of string ownership. -/
theorem compile_strings_managed {layout : Layout} {s : String} (h : p.compile layout = .ok s) :
    ∃ lines : List Line, s = render layout.indentation lines ∧
      ∀ pre hdr body post, lines.flatMap Line.code = pre ++ [hdr, .entry] ++ body ++ .close :: post →
        .close ∉ body → ∃ id f b, p.ast.get? id = some (.stmt (.define f b)) ∧ hdr = p.headerOf f ∧
          p.WritesFunction id pre hdr (body ++ .close :: post) ∧
          (p.Within p.Local b → ∀ tr, Path body body tr → StringsManaged tr) := by
  obtain ⟨g, hr, rfl⟩ := runs_of_compile h
  have t₀ := owned_roots hr (owning_new layout)
  have t₁ : p.Owned False [] [] g g.withConstantsWritten := owned_withConstantsWritten id t₀.owning
  have t := t₀.trans (t₁.trans (owned_withRuntimeWritten id t₁.owning))
  have hnew : (Generator.new layout).mark.code = [] := by simp [mark, Generator.new]
  have hall : (Generator.new layout).added g.withConstantsWritten.withRuntimeWritten =
      g.withConstantsWritten.withRuntimeWritten.mark.code := added_of_eq (by rw [hnew]; rfl)
  refine ⟨_, by rw [finish_eq, layout_of_roots hr], fun pre hdr body post hc hb => ?_⟩
  have hc' : (Generator.new layout).added g.withConstantsWritten.withRuntimeWritten =
      (pre ++ [hdr]) ++ .entry :: (body ++ .close :: post) := by
    rw [hall]
    change List.flatMap Line.code _ = _
    rw [hc]
    simp
  obtain ⟨pre', hdr', he, id, f, b, hn, hh, hw, hf⟩ := t.chunks _ _ hc'
  obtain ⟨rfl, hh'⟩ := List.append_inj' he rfl
  obtain rfl : hdr = hdr' := List.singleton_inj.mp hh'
  rw [hnew, List.nil_append] at hw
  refine ⟨id, f, b, hn, hh, hw, fun hl => ?_⟩
  obtain ⟨body', post', hbody, hb', hT⟩ := hf hl
  obtain rfl := eq_of_append_close hb hb' hbody
  exact hT

/-- A string function that makes two strings and returns the second:
string f () { "a" + "b"; return "c" + "d"; }. -/
def concatUnit : Program where
  symbols := { functions := #[{ name := "f", result := .string, params := [] }] }
  ast := { nodes := #[.expr (.str "a") (some .string), .expr (.str "b") (some .string),
      .expr (.arith .add 0 1) (some .string), .stmt (.eval 2), .expr (.str "c") (some .string),
      .expr (.str "d") (some .string), .expr (.arith .add 4 5) (some .string), .stmt (.ret 6),
      .stmt (.block [3, 7]), .stmt (.define 0 8)], roots := #[9] }

/-- The text of the unit above: the first string made is freed before the return, the second is returned. -/
def concatText : String :=
  "define i8* @f() \x7b\n" ++
    "entry:\n" ++
    "  %str.1 = getelementptr inbounds [2 x i8], [2 x i8]* @str.1, i32 0, i32 0\n" ++
    "  %str.2 = getelementptr inbounds [2 x i8], [2 x i8]* @str.2, i32 0, i32 0\n" ++
    "  %tmp.1 = call i8* @__string_concat__(i8* %str.1, i8* %str.2)\n" ++
    "  %str.3 = getelementptr inbounds [2 x i8], [2 x i8]* @str.3, i32 0, i32 0\n" ++
    "  %str.4 = getelementptr inbounds [2 x i8], [2 x i8]* @str.4, i32 0, i32 0\n" ++
    "  %tmp.2 = call i8* @__string_concat__(i8* %str.3, i8* %str.4)\n" ++
    "  call void @__string_free__(i8* %tmp.1)\n" ++
    "  ret i8* %tmp.2\n" ++
    "\x7d\n" ++
    "@str.1 = private unnamed_addr constant [2 x i8] c\"a\\00\"\n" ++
    "@str.2 = private unnamed_addr constant [2 x i8] c\"b\\00\"\n" ++
    "@str.3 = private unnamed_addr constant [2 x i8] c\"c\\00\"\n" ++
    "@str.4 = private unnamed_addr constant [2 x i8] c\"d\\00\"\n" ++
    "\n" ++
    "declare i1 @__string_equal__(i8*, i8*)\n" ++
    "declare i1 @__string_not_equal__(i8*, i8*)\n" ++
    "declare i8* @__string_copy__(i8*)\n" ++
    "declare i8* @__string_concat__(i8*, i8*)\n" ++
    "declare void @__string_free__(i8*)\n" ++
    "\n"

/-- The unit lowered rule by rule: the memo lookups, the register counters and the owned strings are read from the
maps' inserts, and the text is then rendered by the kernel. -/
theorem concatUnit_compile : concatUnit.compile .compact = .ok concatText := by
  have hr : concatUnit.ast.roots.toList = [9] := rfl
  have hs : concatUnit.ast.size = 10 := rfl
  have h0 : concatUnit.ast.get? 0 = some (.expr (.str "a") (some .string)) := rfl
  have h1 : concatUnit.ast.get? 1 = some (.expr (.str "b") (some .string)) := rfl
  have h2 : concatUnit.ast.get? 2 = some (.expr (.arith .add 0 1) (some .string)) := rfl
  have h3 : concatUnit.ast.get? 3 = some (.stmt (.eval 2)) := rfl
  have h4 : concatUnit.ast.get? 4 = some (.expr (.str "c") (some .string)) := rfl
  have h5 : concatUnit.ast.get? 5 = some (.expr (.str "d") (some .string)) := rfl
  have h6 : concatUnit.ast.get? 6 = some (.expr (.arith .add 4 5) (some .string)) := rfl
  have h7 : concatUnit.ast.get? 7 = some (.stmt (.ret 6)) := rfl
  have h8 : concatUnit.ast.get? 8 = some (.stmt (.block [3, 7])) := rfl
  have h9 : concatUnit.ast.get? 9 = some (.stmt (.define 0 8)) := rfl
  have hf0 : concatUnit.symbols.signature 0 = { name := "f", result := .string, params := [] } := rfl
  unfold compile
  simp only [hr, hs, h0, h1, h2, h3, h4, h5, h6, h7, h8, h9, hf0, List.forM_eq_forM, List.forM_cons, List.forM_nil,
    List.map_nil, Runs.run_bind, Runs.run_pure, Runs.run_get, Runs.run_modify, Runs.discard_eq, walk_succ_emit,
    walk_succ_expr, emitNode, lowerStmt, lowerDefinition, lowerReturn, lowerExpr, lowerForm, valueOf, exprType,
    operandType, isComparison, handOver, ownedIndex, temp, run_write, run_instr, run_terminate, run_fresh,
    run_remember, run_writeBlank, run_freeAll, run_flushConstants, run_declareRuntime, run_queueConstant,
    run_useRuntime, run_own, withItem, withBlank, withLabels, withLabel, withInstr, withTerminator, withFrees,
    withFresh, withValue, withConstant, withRuntime, withOwned, withConstantsWritten, withRuntimeWritten, withItems,
    nextIndex, Generator.new, Std.HashMap.getElem?_insert, Std.HashMap.getElem?_empty, Std.HashMap.getD_insert,
    Std.HashMap.getD_empty, List.foldl_nil, List.foldl_cons, List.headD_nil, ne_eq, not_true_eq_false, ↓reduceIte,
    Bool.false_eq_true, and_false, Nat.reduceAdd, Nat.reduceSub, Nat.reduceBEq, beq_self_eq_true, List.idxOf?,
    List.eraseIdx_cons_succ, List.eraseIdx_cons_zero, List.nil_append, List.cons_append, List.take_zero,
    String.reduceBEq, List.findIdx?_cons, beq_iff_eq, Reg.mk.injEq, Option.map_some, Nat.reduceEqDiff]
  decide +kernel

/-- The unit compiles, and every path through its function, which joins two pairs of strings, keeps the rules of
string ownership. -/
theorem concatUnit_strings_managed : concatUnit.compile .compact = .ok concatText ∧
    ∃ lines : List Line, concatText = render Layout.compact.indentation lines ∧
      ∀ pre hdr body post, lines.flatMap Line.code = pre ++ [hdr, .entry] ++ body ++ .close :: post →
        .close ∉ body → ∃ id f b, concatUnit.ast.get? id = some (.stmt (.define f b)) ∧
          hdr = concatUnit.headerOf f ∧ concatUnit.WritesFunction id pre hdr (body ++ .close :: post) ∧
          (concatUnit.Within concatUnit.Local b → ∀ tr, Path body body tr → StringsManaged tr) :=
  ⟨concatUnit_compile, compile_strings_managed concatUnit_compile⟩

/-- A string function whose body is empty, string f () { }. -/
def emptyStringUnit : Program where
  symbols := { functions := #[{ name := "f", result := .string, params := [] }] }
  ast := { nodes := #[.stmt (.block []), .stmt (.define 0 0)], roots := #[1] }

/-- A string function may return null: when its body falls off its end, the epilogue returns null, which is neither
a string the function made nor a copy of one. -/
theorem emptyStringUnit_returns_null :
    emptyStringUnit.compile .compact = .ok "define i8* @f() \x7b\nentry:\n  ret i8* null\n\x7d\n\n" :=
  compile_eq_ok (by decide +kernel)

end Program

end Lowering
