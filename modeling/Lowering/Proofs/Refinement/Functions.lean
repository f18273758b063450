import Lowering.Proofs.FirstViolation
import Lowering.Proofs.Refinement.Control

/-!
# A lowered function returns as the function does

A function's code starts at its entry label: each parameter gets a slot named after it with `.addr`, its argument
stored there (`Frame.spill`), and the body's code follows, closed by a return of zero where the body falls off its
end. Run from the frame that holds the arguments (`Program.entryFrame`), the code returns a value and final globals
exactly when the function, run on the environment of the call (`Env.entry`), does.

Two conditions carry the result, and lowering needs both. No two variables of the body may live in one slot: a
local named `a.addr` beside a parameter `a` shares the parameter's spill slot, and the parameter then reads what the
local holds. And no node of the body may be lowered before: the operands of lowered expressions are remembered for
the whole unit, not for one function, so a node shared with a function lowered earlier reads a register defined
there.
-/

namespace Lowering

open Ir Generator

namespace Ir.Frame

/-- The frame with a parameter spilled: the slot named after it with `.addr` made, holding its argument. -/
def spill (fr : Frame) (name : String) : Frame := fr.alloc (name ++ ".addr") ((fr.args name).getD 0)

/-- Spilling a parameter leaves the arguments alone. -/
@[simp] theorem spill_args (fr : Frame) (name : String) : (fr.spill name).args = fr.args := rfl

/-- Spilling a parameter leaves the globals alone. -/
@[simp] theorem spill_globals (fr : Frame) (name : String) : (fr.spill name).globals = fr.globals := rfl

/-- Spilling the parameters leaves the globals alone. -/
theorem foldl_spill_globals (names : List String) (fr : Frame) : (names.foldl spill fr).globals = fr.globals := by
  induction names generalizing fr <;> simp [*]

/-- The spills leave alone every slot that is not the slot of a spilled parameter. -/
theorem foldl_spill_slots_of (names : List String) (fr : Frame) {n : String} (hn : ∀ x ∈ names, x ++ ".addr" ≠ n) :
    (names.foldl spill fr).slots n = fr.slots n := by
  induction names generalizing fr with
  | nil => rfl
  | cons y names ih =>
    rw [List.foldl_cons, ih _ fun x hx => hn x (List.mem_cons_of_mem _ hx)]
    exact Function.update_of_ne (hn y List.mem_cons_self).symm _ _

/-- After the spills, the slot of a spilled parameter holds its argument. -/
theorem foldl_spill_slot (names : List String) (fr : Frame) {x : String} (hx : x ∈ names) :
    (names.foldl spill fr).slots (x ++ ".addr") = some ((fr.args x).getD 0) := by
  induction names generalizing fr with
  | nil => cases hx
  | cons y names ih =>
    rw [List.foldl_cons]
    by_cases hm : x ∈ names
    · rw [ih _ hm, spill_args]
    · obtain rfl : x = y := by simpa [hm] using hx
      rw [foldl_spill_slots_of _ _ fun z hz e => hm (by rwa [← (String.append_left_inj ".addr").mp e])]
      simp [spill]

end Ir.Frame

namespace Generator

variable {g : Generator}

/-- A parameter's spill writes its allocation and its store. -/
theorem mark_withSpill (s : Symbol) : (g.withSpill s).mark =
    (g.mark.instr (.alloca (s.name ++ ".addr") s.ty)).instr (.store s.ty (.arg s.name) (.slot (s.name ++ ".addr"))) := by
  simp [withSpill]

/-- After a spill the block is open. -/
@[simp] theorem withSpill_closed (s : Symbol) : (g.withSpill s).closed = false := by simp [withSpill]

/-- After the spills of an open block the block is open. -/
theorem foldl_withSpill_closed {syms : List Symbol} (hg : g.closed = false) : (syms.foldl withSpill g).closed = false := by
  induction syms generalizing g with
  | nil => exact hg
  | cons s syms ih => exact ih (withSpill_closed s)

/-- A body that leaves its block open, with no string owned, is closed by a return of its result type's zero. -/
theorem mark_withEpilogue_open {r : Ty} (hc : g.closed = false) (ho : g.owned = []) :
    (g.withEpilogue r).mark = g.mark.terminate (.ret r (zero r)) := by
  unfold withEpilogue
  rw [if_neg (by simp [hc]), ho]
  simp only [withFrees, List.foldl_nil, mark_withTerminator]
  rfl

/-- A spill only adds to the code. -/
theorem before_withSpill (g : Generator) (s : Symbol) : g.mark.Before (g.withSpill s).mark := by
  rw [mark_withSpill]
  exact (Mark.before_instr _ _).trans (Mark.before_instr _ _)

/-- The spills only add to the code. -/
theorem before_foldl_withSpill (syms : List Symbol) (g : Generator) : g.mark.Before (syms.foldl withSpill g).mark := by
  induction syms generalizing g with
  | nil => exact List.prefix_refl _
  | cons s syms ih => exact (before_withSpill g s).trans (ih _)

end Generator

namespace Ir.Site

variable {S : Site} {init : String → Int32}

/-- From a mark where the body starts, the whole body follows. -/
theorem rest_of_pre {a : Mark} (h : a.code = S.pre) : S.rest a = S.body := by
  simp [rest, h]

/-- Spilling a parameter runs its two instructions: the slot is made, and the argument is stored in it. -/
theorem flows_withSpill {g : Generator} (s : Symbol) (hH : S.Holds g.mark) (hH' : S.Holds (g.withSpill s).mark)
    {fr : Frame} {v : Int32} (hv : fr.args s.name = some v) :
    S.Flows init g.mark (g.withSpill s).mark fr (fr.spill s.name) := by
  rw [mark_withSpill] at hH' ⊢
  have hA := hH.between hH' (Mark.before_instr _ _) (Mark.before_instr _ _)
  refine (S.flows_instr hA fun _ => step_alloca).trans (S.flows_instr hH' fun code => ?_)
  rw [step_store (show (fr.alloc _ _).operand (.arg s.name) = some (.int v) by simp [Frame.operand, hv])]
  simp [Frame.write, Frame.spill, Frame.alloc, hv]

/-- The spills of the parameters run one after the other, when each has its argument. -/
theorem flows_foldl_withSpill (syms : List Symbol) {g : Generator} (hH : S.Holds g.mark)
    (hH' : S.Holds (syms.foldl withSpill g).mark) {fr : Frame} (hv : ∀ s ∈ syms, (fr.args s.name).isSome) :
    S.Flows init g.mark (syms.foldl withSpill g).mark fr ((syms.map Symbol.name).foldl Frame.spill fr) := by
  induction syms generalizing g fr with
  | nil => exact .refl _ _
  | cons s syms ih =>
    obtain ⟨v, hs⟩ := Option.isSome_iff_exists.mp (hv s List.mem_cons_self)
    have h₁ : S.Holds (g.withSpill s).mark := hH.between hH' (before_withSpill g s) (before_foldl_withSpill syms _)
    exact (flows_withSpill s hH h₁ hs).trans (ih h₁ hH' fun s' hs' => by simpa using hv s' (List.mem_cons_of_mem _ hs'))

end Ir.Site

namespace Program

variable (p : Program)

/-- The frame a function's code starts from: no register or slot yet, the globals, and each argument under the name of
its parameter. -/
def entryFrame (ps : List SymbolId) (args : List Int32) (globals : String → Int32) : Frame :=
  ⟨fun _ => none, fun _ => none, globals, fun name => ((ps.map fun s => (p.symbols.symbol s).name).zip args).lookup name⟩

variable {p}

section Entry

variable {ps : List SymbolId} {vars : SymbolId → Prop}

/-- Parameters of the set lie in slots apart, so no two of them share a name. -/
theorem SlotsApart.names (hap : p.SlotsApart ps vars) (hps : ∀ s ∈ ps, vars s) {s s' : SymbolId} (hs : s ∈ ps)
    (hs' : s' ∈ ps) (h : (p.symbols.symbol s).name = (p.symbols.symbol s').name) : s = s' :=
  hap s s' (hps s hs) (hps s' hs') (by simp [globalOf, hs]) (by simp [globalOf, hs'])
    (by simp [slotOf, hs, hs', h])

/-- An argument looked up by its parameter's name is the one the parameter gets, when no two parameters share a
name. -/
theorem lookup_names (hn : ∀ s ∈ ps, ∀ s' ∈ ps, (p.symbols.symbol s).name = (p.symbols.symbol s').name → s = s')
    {s : SymbolId} (hs : s ∈ ps) (args : List Int32) :
    ((ps.map fun s => (p.symbols.symbol s).name).zip args).lookup (p.symbols.symbol s).name = (ps.zip args).lookup s := by
  induction ps generalizing args with
  | nil => cases hs
  | cons q ps ih =>
    cases args with
    | nil => simp
    | cons a args =>
      by_cases e : s = q
      · subst e
        simp
      · have hne : (p.symbols.symbol s).name ≠ (p.symbols.symbol q).name :=
          fun h => e (hn s hs q List.mem_cons_self h)
        have hs' : s ∈ ps := by simpa [e] using hs
        simp only [List.map_cons, List.zip_cons_cons, List.lookup_cons, beq_false_of_ne hne, beq_false_of_ne e]
        exact ih (fun x hx y hy => hn x (List.mem_cons_of_mem _ hx) y (List.mem_cons_of_mem _ hy)) hs' args

/-- A parameter with an argument for each has one. -/
theorem lookup_zip_isSome {s : SymbolId} (hs : s ∈ ps) {args : List Int32} (hlen : args.length = ps.length) :
    ((ps.zip args).lookup s).isSome := by
  induction ps generalizing args with
  | nil => cases hs
  | cons q ps ih =>
    cases args with
    | nil => simp at hlen
    | cons a args =>
      by_cases e : s = q
      · subst e
        simp
      · simp only [List.zip_cons_cons, List.lookup_cons, beq_false_of_ne e]
        exact ih (by simpa [e] using hs) (by simpa using hlen)

/-- A symbol that is no parameter gets no argument. -/
theorem lookup_zip_of_not_mem {s : SymbolId} (hs : s ∉ ps) (args : List Int32) : (ps.zip args).lookup s = none := by
  induction ps generalizing args with
  | nil => rfl
  | cons q ps ih =>
    cases args with
    | nil => rfl
    | cons a args =>
      have e : s ≠ q := fun e => hs (e ▸ List.mem_cons_self)
      simp only [List.zip_cons_cons, List.lookup_cons, beq_false_of_ne e]
      exact ih (fun h => hs (List.mem_cons_of_mem _ h)) args

/-- After the spills, the frame stores every variable as the environment of a call gives it: each parameter in its
slot with its argument, and no local yet. -/
theorem stores_spilled (hps : ∀ s ∈ ps, vars s) (hap : p.SlotsApart ps vars) {args : List Int32}
    (hlen : args.length = ps.length) (globals : String → Int32) :
    p.Stores ps vars (Env.entry ps args globals)
      (((ps.map p.symbols.symbol).map Symbol.name).foldl Frame.spill (p.entryFrame ps args globals)) := by
  refine ⟨by simp [Frame.foldl_spill_globals, entryFrame, Env.entry], fun s hs hg => ?_⟩
  by_cases hp : s ∈ ps
  · rw [show p.slotOf ps s = (p.symbols.symbol s).name ++ ".addr" by simp [slotOf, hp],
      Frame.foldl_spill_slot _ _ (by simpa using ⟨s, hp, rfl⟩)]
    obtain ⟨a, ha⟩ := Option.isSome_iff_exists.mp (lookup_zip_isSome hp hlen)
    have hl := lookup_names (fun x hx y hy => hap.names hps hx hy) hp args
    simp [entryFrame, Env.entry, hl, ha]
  · -- a local's slot is no parameter's
    rw [show p.slotOf ps s = (p.symbols.symbol s).name by simp [slotOf, hp], Frame.foldl_spill_slots_of]
    · simp [entryFrame, Env.entry, lookup_zip_of_not_mem hp]
    · intro x hx e
      simp only [List.map_map, List.mem_map, Function.comp_apply] at hx
      obtain ⟨s', hs', rfl⟩ := hx
      exact hp (hap s' s (hps s' hs') hs (by simp [globalOf, hs']) hg (by simpa [slotOf, hs', hp] using e) ▸ hs')

end Entry

/-! ## A body and its return -/

section Bodies

variable {σ : Setting}

/-- Code written for a body, entered at mark `S` with a frame that flows to its start, and closed by a return of zero
where the body ends normally, returns from `S` exactly the values and globals the body returns. -/
theorem Emitted.returns_iff {b : NodeId} {g g' : Generator} {S : Mark} {fr₀ fr : Frame} {ρ : Env}
    (h : p.Emitted σ (.node b) g g') (hH : σ.site.Holds g.mark) (hH' : σ.site.Holds g'.mark)
    (hf : σ.site.Flows σ.init S g.mark fr₀ fr) (hg : g.closed = false)
    (hR : g'.closed = false → σ.site.Holds (g'.mark.instr (.ret .int (.int 0)))) (hst : p.Stores σ.params σ.vars ρ fr)
    (v : Int32) (G : String → Int32) :
    Ir.Returns σ.site.body σ.init (σ.site.rest S) fr₀ (v, G) ↔
      ∃ o, p.Exec σ.params σ.init ρ (.node b) o ∧ o.result = some (v, G) := by
  -- how the code ends, for each way the body ends: the implicit return gives zero
  have out : ∀ o, p.Exec σ.params σ.init ρ (.node b) o →
      (∀ r, o.result = some r → Ir.Returns σ.site.body σ.init (σ.site.rest S) fr₀ r) ∧
      (o.result = none → Fails σ.site.body σ.init (σ.site.rest S) fr₀) := by
    intro o hx
    have R := h.runs hH hH' ρ fr o hst hx
    cases o with
    | normal ρ' =>
      obtain ⟨fr', f', ag, cl⟩ := R
      refine ⟨fun r hr => ?_, fun hr => by cases hr⟩
      cases hr
      have hr : Ir.Returns σ.site.body σ.init (σ.site.rest g'.mark) fr' (0, ρ'.globals) := by
        rw [← ag.globals]
        exact Returns.of_steps (σ.site.steps_instr (hR (cl hg))) (returns_ret rfl)
      exact Returns.of_steps (hf.trans f') hr
    | ret v ρ' =>
      refine ⟨fun r hr => ?_, fun hr => by cases hr⟩
      cases hr
      exact Returns.of_steps hf R
    | error => exact ⟨fun r hr => (by cases hr), fun _ => Fails.of_steps hf R⟩
  constructor
  · intro hr
    obtain ⟨o, hx⟩ := h.ends hH hH' ρ fr _ hst (Returns.steps hf hr)
    obtain ⟨hok, hfail⟩ := out o hx
    cases hr' : o.result with
    | none => exact (Returns.not_fails hr (hfail hr')).elim
    | some r =>
      obtain rfl := Returns.unique hr (hok r hr')
      exact ⟨o, hx, hr'⟩
  · rintro ⟨o, hx, hr⟩
    exact (out o hx).1 _ hr

end Bodies

/-! ## The code of a definition -/

open BlocksAux in
/-- What lowering writes for a definition whose body's code spans a function body: the head and the entry label, the
function's code up to the end of its epilogue, with no closing brace and no label placed twice in it, then the closing
brace and what follows it. -/
theorem code_bodyEnd {f : FunctionId} {g g₁ : Generator} (hb : Span .body [] [] (p.bodyStart f g).mark g₁.mark) :
    ∃ fb rest, (g₁.withEpilogue (p.symbols.signature f).result).mark.code =
        g.mark.code ++ [p.headerOf f, .entry] ++ fb ∧ .close ∉ fb ∧ (placed fb).Nodup ∧
      (p.bodyEnd f g g₁).mark.code = g.mark.code ++ p.headerOf f :: .entry :: fb ++ .close :: rest := by
  have s₀ : Span .body [] [] _ (p.bodyStart f g).mark := span_bodyStart f g
  obtain ⟨-, -, fb, hfb, hcode, hfresh⟩ := (s₀.then_ hb).then_ (span_withEpilogue g₁ (p.symbols.signature f).result)
  simp only [mark_withItem, Mark.write_code] at hfb
  have sc : Span .top [] [] _ _ := span_withConstantsWritten (g := { g₁.withEpilogue (p.symbols.signature f).result with
    spilled := g.spilled, depth := (g₁.withEpilogue (p.symbols.signature f).result).depth - 1, closed := false }.withItem
    .close)
  have sr : Span .top [] [] _ _ := span_withRuntimeWritten (g := ({ g₁.withEpilogue (p.symbols.signature f).result with
    spilled := g.spilled, depth := (g₁.withEpilogue (p.symbols.signature f).result).depth - 1, closed := false }.withItem
    .close).withConstantsWritten.withBlank)
  obtain ⟨-, -, rest₁, hr₁, -⟩ := sc
  obtain ⟨-, -, rest₂, hr₂, -⟩ := sr
  refine ⟨fb, rest₁ ++ rest₂, ?_, close_not_mem_of_blockRun hcode.1, hfresh.nodup, ?_⟩
  · rw [hfb]
    simp [headerOf, paramsOf, Item.code]
  · simp only [bodyEnd, hr₂, mark_withBlank, hr₁, mark_withItem, Mark.write_code]
    change (g₁.withEpilogue _).mark.code ++ _ ++ rest₁ ++ rest₂ = _
    rw [hfb]
    simp [headerOf, paramsOf, Item.code]

/-- The spills come after the entry label. -/
theorem before_bodyStart (f : FunctionId) (g : Generator) :
    ({ ((g.withItem (p.headerOf f)).withItem .entry).mark with closed := false } : Mark).Before (p.bodyStart f g).mark :=
  before_foldl_withSpill _ { (g.withItem (p.headerOf f)).withItem .entry with
    depth := g.depth + 1, closed := false, owned := [], marks := [] }

/-- From the entry label, the spills run to the start of the body, from the frame that holds the arguments to one that
holds the environment of the call: each parameter's argument in its slot, and no local yet. -/
theorem spills_flow {f : FunctionId} {g : Generator} {vars : SymbolId → Prop} {S : Ir.Site} {init : String → Int32}
    (hps : ∀ s ∈ (p.symbols.signature f).params, vars s) (hap : p.SlotsApart (p.symbols.signature f).params vars)
    (hH : S.Holds { ((g.withItem (p.headerOf f)).withItem .entry).mark with closed := false })
    (hH' : S.Holds (p.bodyStart f g).mark) {args : List Int32}
    (hlen : args.length = (p.symbols.signature f).params.length) (globals : String → Int32) :
    ∃ fr, S.Flows init { ((g.withItem (p.headerOf f)).withItem .entry).mark with closed := false }
        (p.bodyStart f g).mark (p.entryFrame (p.symbols.signature f).params args globals) fr ∧
      p.Stores (p.symbols.signature f).params vars (Env.entry (p.symbols.signature f).params args globals) fr := by
  refine ⟨_, ?_, stores_spilled hps hap hlen globals⟩
  have hargs : ∀ s ∈ (p.symbols.signature f).params.map p.symbols.symbol,
      ((p.entryFrame (p.symbols.signature f).params args globals).args s.name).isSome := by
    intro s hs
    obtain ⟨q, hq, rfl⟩ := List.mem_map.mp hs
    simpa [entryFrame, lookup_names (fun x hx y hy => hap.names hps hx hy) hq] using lookup_zip_isSome hq hlen
  exact S.flows_foldl_withSpill (g := { (g.withItem (p.headerOf f)).withItem .entry with
    depth := g.depth + 1, closed := false, owned := [], marks := [] }) _ hH hH' hargs

/-! ## A function of the fragment -/

open BlocksAux in
/-- Lowering a definition whose body is a tree of the integer fragment, none of whose nodes is lowered yet, at any depth
of the walk, writes the function's head, entry label, code and closing brace. Run from the frame that holds the
arguments, the code returns a value with final globals exactly when the function does, for every argument of each
parameter, all globals and all contents the locals' slots start with. The body's variables (`vars`) take in the
parameters, and no two of them live in one slot. -/
theorem lowered_function_refines {n : Nat} {id : NodeId} {f : FunctionId} {b : NodeId} {g g' : Generator}
    {vars : SymbolId → Prop} (hn : p.ast.get? id = some (.stmt (.define f b))) (h : Runs ((p.walk n).emit id) g () g')
    (hres : (p.symbols.signature f).result = .int) (hps : ∀ s ∈ (p.symbols.signature f).params, vars s)
    (hap : p.SlotsApart (p.symbols.signature f).params vars)
    (hint : p.Within (p.IntNode (p.symbols.signature f).params vars) b) (htree : p.Tree b) (hnew : p.Unlowered g b) :
    ∃ body rest, g'.mark.code = g.mark.code ++ p.headerOf f :: .entry :: body ++ .close :: rest ∧ .close ∉ body ∧
      ∀ init args globals v G, args.length = (p.symbols.signature f).params.length →
        (Ir.Returns body init body (p.entryFrame (p.symbols.signature f).params args globals) (v, G) ↔
          p.Returns (p.symbols.signature f).params init b args globals v G) := by
  cases n with
  | zero => exact absurd h Runs.throw_false
  | succ m =>
  rcases runs_emitNode h with ⟨e, t, hn', -⟩ | ⟨s, hn', h⟩
  · rw [hn] at hn'
    cases hn'
  rw [hn] at hn'
  cases hn'
  obtain ⟨g₁, h₁, rfl⟩ := runs_lowerDefinition h
  obtain ⟨fb, rest, hE, hclose, hnodup, hcode⟩ :=
    code_bodyEnd ((bodySpans_walk m).emit h₁ fun d n hr hd => (hint d n hr hd).local)
  refine ⟨fb, rest, hcode, hclose, fun init args globals v G hlen => ?_⟩
  let σ : Setting := ⟨(p.symbols.signature f).params, vars, init, ⟨g.mark.code ++ [p.headerOf f, .entry], fb, hnodup⟩⟩
  have hpre : ({ ((g.withItem (p.headerOf f)).withItem .entry).mark with closed := false } : Mark).code =
      g.mark.code ++ [p.headerOf f, .entry] := by
    simp [Item.code, headerOf]
  have hH₀ : σ.site.Holds { ((g.withItem (p.headerOf f)).withItem .entry).mark with closed := false } :=
    ⟨hpre ▸ List.prefix_refl _, hpre ▸ List.prefix_append _ _⟩
  have hHE : σ.site.Holds (g₁.withEpilogue (p.symbols.signature f).result).mark :=
    ⟨hE ▸ List.prefix_append _ _, hE ▸ List.prefix_refl _⟩
  have k₁ : (p.bodyStart f g).mark.code <+: g₁.mark.code := code_prefix h₁
  have k₂ : g₁.mark.code <+: (g₁.withEpilogue (p.symbols.signature f).result).mark.code := by
    obtain ⟨-, -, seg, hseg, -⟩ := (span_withEpilogue (g := g₁) (p.symbols.signature f).result : Span .body [] [] _ _)
    rw [hseg]
    exact List.prefix_append _ _
  have hHS : σ.site.Holds (p.bodyStart f g).mark := hH₀.between hHE (before_bodyStart f g) (k₁.trans k₂)
  have hH₁ : σ.site.Holds g₁.mark := hHS.between hHE k₁ k₂
  obtain ⟨fr, fS, hS⟩ := spills_flow hps hap hH₀ hHS hlen globals
  have Eb := emits_walk m h₁ (σ := σ) ⟨rfl, hap, hint, htree, fun x hx => by simpa [bodyStart] using hnew x hx⟩
    (by simp [bodyStart])
  have hrest : σ.site.rest { ((g.withItem (p.headerOf f)).withItem .entry).mark with closed := false } = fb :=
    σ.site.rest_of_pre hpre
  have hR : g₁.closed = false → σ.site.Holds (g₁.mark.instr (.ret .int (.int 0))) := fun ho => by
    have h := hHE
    rw [mark_withEpilogue_open ho Eb.owned, hres] at h
    exact h
  have hiff := Eb.returns_iff hHS hH₁ fS (foldl_withSpill_closed (by simp)) hR hS v G
  rw [hrest] at hiff
  exact hiff

/-- A function with a parameter and a local that returns zero, `int f (int a) \x7b int b; return 0; \x7d`. -/
def localZeroUnit : Program where
  symbols := { symbols := #[{ name := "a", ty := .int, flags := { param := true } }, { name := "b", ty := .int, flags := {} }],
               functions := #[{ name := "f", result := .int, params := [0] }] }
  ast := { nodes := #[.expr (.int 0) (some .int), .stmt (.ret 0), .stmt (.declare [1]), .stmt (.block [2, 1]),
    .stmt (.define 0 3)], roots := #[4] }

/-- The nodes of the unit with a local form a forest built bottom up. -/
theorem localZeroUnit_forest : localZeroUnit.Forest := by decide

/-- The parameter's slot is `a.addr` and the local's is `b`. -/
theorem localZeroUnit_slotsApart : localZeroUnit.SlotsApart [0] (· ∈ [0, 1]) := by
  intro s s' hs hs' _ _ h
  simp only [List.mem_cons, List.not_mem_nil, or_false] at hs hs'
  rcases hs with rfl | rfl <;> rcases hs' with rfl | rfl <;> simp_all [slotOf, localZeroUnit, SymbolTable.symbol]

/-- Lowering `int f (int a) { int b; return 0; }` succeeds, and the function's code returns a value and globals
exactly when the function does, for every argument. -/
theorem localZeroUnit_refines : ∃ g', Runs ((localZeroUnit.walk 6).emit 4) (Generator.new {}) () g' ∧
    ∃ body rest, g'.mark.code =
        (Generator.new {}).mark.code ++ localZeroUnit.headerOf 0 :: .entry :: body ++ .close :: rest ∧
      .close ∉ body ∧ ∀ init args globals v G, args.length = 1 →
        (Ir.Returns body init body (localZeroUnit.entryFrame [0] args globals) (v, G) ↔
          localZeroUnit.Returns [0] init 3 args globals v G) := by
  have hrun : Runs ((localZeroUnit.walk 6).emit 4) (Generator.new {}) ()
      (((localZeroUnit.walk 6).emit 4).run.run (Generator.new {})).2 := by
    unfold Runs
    rw [Prod.ext_iff]
    exact ⟨by decide +kernel, rfl⟩
  refine ⟨_, hrun, lowered_function_refines rfl hrun rfl (by simp [localZeroUnit, SymbolTable.signature]) localZeroUnit_slotsApart ?_
    (localZeroUnit_forest.tree 3) fun x _ => by simp [Generator.new]⟩
  refine within_of_closed [0, 1, 2, 3] (fun d hd n hn => ?_) (by simp)
  simp only [List.mem_cons, List.not_mem_nil, or_false] at hd
  rcases hd with rfl | rfl | rfl | rfl <;> simp [localZeroUnit, Ast.get?] at hn <;> subst hn <;>
    simp [IntNode, Node.children, localZeroUnit, SymbolTable.symbol, SymbolTable.signature]

end Program

end Lowering
