import Lowering.Proofs.Keeps
import Lowering.Proofs.OwnedFunctions

/-!
# String constants follow their references

A string literal is lowered to a line that takes the address of a constant, and the constant is queued; the queued
constants are written after the closing brace of the function being defined, or when the text is finished. Whatever
a session emits, and whether each emit succeeds or fails, the finished listing has, after each such line, exactly one
definition of its constant, with the bytes of the literal's raw text and the size the line takes; no definition comes
before its line, and every definition has one (`session_constants_paired`).

The invariant is stated of the code written and the constants queued together (`Paired`), with the registers the
constants are named by still ahead of their counter (`ConstantsPaired`); each step that lowering takes keeps it
(`stepsKeep_constantsPaired`), so every session does, through `StepsKeep.afterSteps`.

A constant's bytes are written between quotes, a printable byte other than a quote or a backslash as itself and every
other byte as a backslash and two upper-case hex digits; reading that text back (`Literal.unescape`) gives the bytes
again (`unescape_encode`). In the other direction, a string written as a literal, with a backslash, a quote and the
five control characters that have an escape of their own escaped, decodes to the string's UTF-8 bytes
(`decode_escape`): each escape is read as a whole, whatever follows it.
-/

namespace Lowering

open Ir Generator

/-! ## Reading a constant's text back -/

namespace Literal

/-- The value of an upper-case hex digit. -/
def hexValue (c : Char) : Option Nat :=
  if '0' ≤ c ∧ c ≤ '9' then some (c.toNat - '0'.toNat)
  else if 'A' ≤ c ∧ c ≤ 'F' then some (c.toNat - 'A'.toNat + 10)
  else none

/-- Whether a character stands for its own byte in a constant: printable ASCII, but neither a quote nor a
backslash. -/
def isPlainChar (c : Char) : Bool := 0x20 ≤ c.toNat && c.toNat ≤ 0x7E && c.toNat != 0x22 && c.toNat != 0x5C

/-- The bytes the text of a constant stands for: a plain character its own byte, a backslash and two upper-case hex
digits the byte they spell; none for any other text. -/
def unescape : List Char → Option (List UInt8)
  | [] => some []
  | '\\' :: hi :: lo :: rest => do
    let a ← hexValue hi
    let b ← hexValue lo
    (unescape rest).map ((16 * a + b).toUInt8 :: ·)
  | c :: rest => if isPlainChar c then (unescape rest).map (c.toNat.toUInt8 :: ·) else none

/-- A hex digit reads back as the number it spells. -/
theorem hexValue_hexDigit {n : Nat} (h : n < 16) : hexValue (hexDigit n) = some n := by
  obtain ⟨k, rfl⟩ : ∃ k : Fin 16, k.val = n := ⟨⟨n, h⟩, rfl⟩
  revert k
  decide

/-- A byte is written as itself exactly when it is printable and neither a quote nor a backslash. -/
theorem isPlain_iff (b : UInt8) :
    isPlain b = true ↔ 0x20 ≤ b.toNat ∧ b.toNat ≤ 0x7E ∧ b.toNat ≠ 0x22 ∧ b.toNat ≠ 0x5C := by
  simp [isPlain, UInt8.le_iff_toNat_le, ← UInt8.toNat_inj]
  omega

/-- A character below 128 has the code point it is made from. -/
theorem toNat_ofNat_of_lt {n : Nat} (h : n < 128) : (Char.ofNat n).toNat = n := by
  rw [Char.ofNat, dif_pos (Or.inl (by omega))]
  simp [Char.ofNatAux, Char.toNat]

/-- The text a byte is written as reads back as the byte, whatever follows it. -/
theorem unescape_encodeByte (b : UInt8) (rest : List Char) :
    unescape (encodeByte b ++ rest) = (unescape rest).map (b :: ·) := by
  unfold encodeByte
  split
  · rename_i hp
    -- a plain byte is written as the character with its code point, which is not a backslash
    obtain ⟨h₁, h₂, h₃, h₄⟩ := (isPlain_iff b).mp hp
    have hc : (Char.ofNat b.toNat).toNat = b.toNat := toNat_ofNat_of_lt (by omega)
    have hne : Char.ofNat b.toNat ≠ '\\' := fun he => h₄ (by rw [← hc, he]; rfl)
    have hpc : isPlainChar (Char.ofNat b.toNat) = true := by
      simp only [isPlainChar, hc]
      simp [h₁, h₂, h₃, h₄]
    rw [List.singleton_append, unescape.eq_3 _ _ (fun _ _ _ he _ => hne he), if_pos hpc, hc, show b.toNat.toUInt8 = b from UInt8.ofNat_toNat]
  · have hb := b.toNat_lt
    simp only [List.cons_append, List.nil_append, unescape, hexValue_hexDigit (show b.toNat / 16 < 16 by omega),
      hexValue_hexDigit (show b.toNat % 16 < 16 by omega), Option.bind_eq_bind, Option.bind_some]
    rw [show 16 * (b.toNat / 16) + b.toNat % 16 = b.toNat by omega, show b.toNat.toUInt8 = b from UInt8.ofNat_toNat]

/-- Reading the text of a byte array back gives the bytes. -/
theorem unescape_encode (bytes : List UInt8) : unescape (encode bytes).toList = some bytes := by
  induction bytes with
  | nil => rfl
  | cons b bytes ih =>
    simp only [encode, String.toList_ofList, List.flatMap_cons] at ih ⊢
    rw [unescape_encodeByte, ih]
    rfl

/-! ## Writing a string as a literal -/

/-- A character that is not a backslash stands for its own UTF-8 bytes. -/
theorem decodeChars_plain {c : Char} (hc : c ≠ '\\') (rest : List Char) :
    decodeChars (c :: rest) = String.utf8EncodeChar c ++ decodeChars rest := by
  cases rest with
  | nil => simp [decodeChars]
  | cons d rest => exact decodeChars.eq_3 c (d :: rest) fun _ _ h _ => hc h

/-- The spelling of a character decodes to the character's UTF-8 bytes, whatever text follows it. -/
theorem decodeChars_escapeChar (c : Char) (rest : List Char) :
    decodeChars (escapeChar c ++ rest) = String.utf8EncodeChar c ++ decodeChars rest := by
  unfold escapeChar
  split
  case h_8 hb _ _ _ _ _ _ => exact decodeChars_plain hb rest
  all_goals simp only [List.cons_append, List.nil_append, decodeChars, escapeBytes]; rfl

/-- Decoding the escapes of characters gives back their UTF-8 bytes. -/
theorem decodeChars_flatMap_escapeChar (cs : List Char) :
    decodeChars (cs.flatMap escapeChar) = cs.flatMap String.utf8EncodeChar := by
  induction cs with
  | nil => rfl
  | cons c cs ih => rw [List.flatMap_cons, decodeChars_escapeChar, ih, List.flatMap_cons]

/-- Decoding the literal that writes a string gives back the string's UTF-8 bytes. -/
theorem decode_escape (s : String) : decode (escape s) = s.toUTF8.data.toList := by
  rw [decode, escape, String.toList_ofList, decodeChars_flatMap_escapeChar, String.toUTF8_eq_toByteArray,
    ← String.utf8Encode_toList, List.utf8Encode, List.data_toByteArray, List.toList_toArray]

/-- The literal that writes a line break, a quote and a backslash after two letters. -/
example : escape "a\n\"b\\" = "a\\n\\\"b\\\\" := by decide

end Literal

/-! ## The constants of a listing -/

namespace Ir

/-- The bytes of the constant an item defines for a register, if it defines one. -/
def Item.constantOf? (r : Reg) : Item → Option (List UInt8)
  | .constant r' bytes => if r' = r then some bytes else none
  | _ => none

/-- The register an item names a string constant by: the constant it defines, or the one whose address it takes. -/
def Item.constantReg? : Item → Option Reg
  | .instr (.literal r _) => some r
  | .constant r _ => some r
  | _ => none

/-- An item that names no constant defines none. -/
theorem Item.constantOf_of_constantReg {i : Item} (h : i.constantReg? = none) (r : Reg) : i.constantOf? r = none := by
  cases i with
  | constant => simp [constantReg?] at h
  | _ => rfl

end Ir

/-- The constants code defines for a register, in order. -/
def constantsOf (r : Reg) (code : List Item) : List (List UInt8) := code.filterMap (Item.constantOf? r)

/-- No code defines no constant. -/
@[simp] theorem constantsOf_nil (r : Reg) : constantsOf r [] = [] := rfl

/-- The constants code defines one piece after another are those of each. -/
@[simp] theorem constantsOf_append (r : Reg) (a b : List Item) :
    constantsOf r (a ++ b) = constantsOf r a ++ constantsOf r b := List.filterMap_append

/-- The constants an item followed by code defines are the item's, then the code's. -/
@[simp] theorem constantsOf_cons (r : Reg) (i : Item) (a : List Item) :
    constantsOf r (i :: a) = (i.constantOf? r).toList ++ constantsOf r a := by
  cases h : i.constantOf? r <;> simp [constantsOf, h]

/-- Code that names no constant defines none. -/
theorem constantsOf_of_plain {r : Reg} {code : List Item} (h : ∀ i ∈ code, i.constantReg? = none) :
    constantsOf r code = [] := by
  induction code with
  | nil => rfl
  | cons i code ih =>
    rw [constantsOf_cons, Item.constantOf_of_constantReg (h i List.mem_cons_self),
      ih fun j hj => h j (List.mem_cons_of_mem i hj)]
    rfl

/-- A register that no item of code names has no constant there. -/
theorem constantsOf_of_not_named {r : Reg} {code : List Item} (h : ∀ i ∈ code, i.constantReg? ≠ some r) :
    constantsOf r code = [] := by
  refine List.filterMap_eq_nil_iff.mpr fun i hi => ?_
  have := h i hi
  cases i with
  | constant r' bytes =>
    have hne : r' ≠ r := fun he => this (by rw [he]; rfl)
    simp [Item.constantOf?, hne]
  | _ => rfl

namespace Generator

/-- The constants queued, as the items that will define them. -/
def queued (g : Generator) : List Item := g.pending.toList.map fun (r, bytes) => .constant r bytes

variable (g : Generator)

/-- An instruction queues no constant. -/
@[simp] theorem withInstr_pending (i : Instr) : (g.withInstr i).pending = g.pending := by
  unfold withInstr; split <;> rfl

/-- A string literal appends the line that takes its constant's address. -/
theorem code_withLiteral (id : NodeId) (bytes : List UInt8) :
    (g.withLiteral id bytes).mark.code =
      g.mark.code ++ ((if g.closed then [.label ⟨g.labels⟩] else []) ++ [.instr (.literal (g.nextReg "str") (bytes.length + 1))]) :=
  code_withInstr (g.withFresh "str") _

/-- A string literal queues its constant after those queued before. -/
theorem queued_withLiteral (id : NodeId) (bytes : List UInt8) :
    (g.withLiteral id bytes).queued = g.queued ++ [.constant (g.nextReg "str") bytes] := by
  simp [withLiteral, queued, withValue, withConstant, withFresh]

/-- A string literal takes the next `str` register. -/
theorem nextIndex_withLiteral (id : NodeId) (bytes : List UInt8) (b : String) :
    (g.withLiteral id bytes).nextIndex b = (g.withFresh "str").nextIndex b := by
  simp [withLiteral, withValue, withConstant, nextIndex]

/-- Writing the queued constants appends them. -/
theorem code_withConstantsWritten : g.withConstantsWritten.mark.code = g.mark.code ++ g.queued := by
  rw [withConstantsWritten, code_withItems]
  congr 1
  simp only [queued, List.flatMap_map, Item.code]
  exact List.map_eq_flatMap.symm

/-- Items queue no constant. -/
@[simp] theorem withItems_pending (is : List Item) : (g.withItems is).pending = g.pending := by
  induction is generalizing g with
  | nil => rfl
  | cons i is ih => exact ih (g.withItem i)

/-- Items take no register. -/
@[simp] theorem withItems_counters (is : List Item) : (g.withItems is).counters = g.counters := by
  induction is generalizing g with
  | nil => rfl
  | cons i is ih => exact ih (g.withItem i)

/-- After the queued constants are written none is queued. -/
@[simp] theorem queued_withConstantsWritten : g.withConstantsWritten.queued = [] := by
  simp [withConstantsWritten, queued]

/-- Writing the queued constants takes no register. -/
@[simp] theorem nextIndex_withConstantsWritten : g.withConstantsWritten.nextIndex = g.nextIndex := by
  funext b
  simp [withConstantsWritten, nextIndex]

/-- Writing the runtime's prototypes queues no constant. -/
@[simp] theorem queued_withRuntimeWritten : g.withRuntimeWritten.queued = g.queued := by
  unfold withRuntimeWritten
  split <;> simp [queued, withBlank]

/-- What is queued is constants. -/
theorem mem_queued {g : Generator} {i : Item} (h : i ∈ g.queued) : ∃ r bytes, i = .constant r bytes := by
  obtain ⟨⟨r, bytes⟩, -, rfl⟩ := List.mem_map.mp h
  exact ⟨r, bytes, rfl⟩

end Generator

/-- Where a line lies in appended code: in the first part, with the second after it, or in the second part. -/
theorem mem_append_split {a b pre post : List Item} {x : Item} (h : a ++ b = pre ++ x :: post) :
    (∃ post₀, a = pre ++ x :: post₀ ∧ post = post₀ ++ b) ∨ (∃ c, pre = a ++ c ∧ b = c ++ x :: post) := by
  rcases List.append_eq_append_iff.mp h with ⟨a', rfl, rfl⟩ | ⟨c', rfl, hc'⟩
  · exact .inr ⟨a', rfl, rfl⟩
  · cases c' with
    | nil => exact .inr ⟨[], by simp, by simpa using hc'.symm⟩
    | cons j c' =>
      obtain ⟨rfl, rfl⟩ := List.cons.inj hc'
      exact .inl ⟨c', rfl, rfl⟩

namespace Program

/-- Code, with constants still to be written after it, in which each line that takes the address of a constant comes
from a string literal of the program, tied to the line's register by `V`, with the literal's bytes and their size
with the terminating NUL, and is followed, then or later, by exactly one definition of its constant, and preceded by
none; and every constant defined or queued has its line before it. -/
structure Paired (p : Program) (V : NodeId → Reg → Prop) (code queue : List Item) : Prop where
  literal : ∀ pre r n post, code = pre ++ .instr (.literal r n) :: post →
    ∃ id raw t, p.ast.get? id = some (.expr (.str raw) t) ∧ V id r ∧ n = (Literal.decode raw).length + 1 ∧
      constantsOf r pre = [] ∧ constantsOf r (post ++ queue) = [Literal.decode raw]
  defined : ∀ pre r bytes post, code = pre ++ .constant r bytes :: post → ∃ n, .instr (.literal r n) ∈ pre
  queued : ∀ r bytes, .constant r bytes ∈ queue → ∃ n, .instr (.literal r n) ∈ code

namespace Paired

variable {p : Program} {V : NodeId → Reg → Prop} {code queue : List Item}

/-- No code and no queue pair trivially. -/
theorem nil : p.Paired V [] [] :=
  ⟨fun pre _ _ _ h => by simp at h, fun pre _ _ _ h => by simp at h, fun _ _ h => by simp at h⟩

/-- Code that names no constant keeps the pairing. -/
theorem append (h : p.Paired V code queue) {more : List Item} (hm : ∀ i ∈ more, i.constantReg? = none) :
    p.Paired V (code ++ more) queue where
  literal pre r n post he := by
    rcases mem_append_split he with ⟨post₀, hc, rfl⟩ | ⟨c, -, hb⟩
    · obtain ⟨id, raw, t, hs, hv, hn, hpre, hpost⟩ := h.literal pre r n post₀ hc
      refine ⟨id, raw, t, hs, hv, hn, hpre, ?_⟩
      simpa [constantsOf_of_plain hm] using hpost
    · exact absurd (hm _ (hb ▸ List.mem_append_right c List.mem_cons_self)) (by simp [Item.constantReg?])
  defined pre r bytes post he := by
    rcases mem_append_split he with ⟨post₀, hc, -⟩ | ⟨c, -, hb⟩
    · exact h.defined pre r bytes post₀ hc
    · exact absurd (hm _ (hb ▸ List.mem_append_right c List.mem_cons_self)) (by simp [Item.constantReg?])
  queued r bytes hq := by
    obtain ⟨n, hn⟩ := h.queued r bytes hq
    exact ⟨n, List.mem_append_left more hn⟩

/-- Writing the queued constants keeps the pairing, with nothing left queued. -/
theorem flush (h : p.Paired V code queue) (hq : ∀ i ∈ queue, ∃ r bytes, i = .constant r bytes) :
    p.Paired V (code ++ queue) [] where
  literal pre r n post he := by
    rcases mem_append_split he with ⟨post₀, hc, rfl⟩ | ⟨c, -, hb⟩
    · simpa using h.literal pre r n post₀ hc
    · obtain ⟨r', bytes, hi⟩ := hq _ (hb ▸ List.mem_append_right c List.mem_cons_self)
      cases hi
  defined pre r bytes post he := by
    rcases mem_append_split he with ⟨post₀, hc, -⟩ | ⟨c, rfl, hb⟩
    · exact h.defined pre r bytes post₀ hc
    · -- a constant written from the queue has its line in the code before it
      obtain ⟨n, hn⟩ := h.queued r bytes (hb ▸ List.mem_append_right c List.mem_cons_self)
      exact ⟨n, List.mem_append_left c hn⟩
  queued _ _ hq := by simp at hq

/-- The pairing holds for every tie that the ties of the literal lines imply. -/
theorem mono (h : p.Paired V code queue) {V' : NodeId → Reg → Prop}
    (hV : ∀ id raw t r, p.ast.get? id = some (.expr (.str raw) t) → V id r → V' id r) : p.Paired V' code queue where
  literal pre r n post he := by
    obtain ⟨id, raw, t, hs, hv, rest⟩ := h.literal pre r n post he
    exact ⟨id, raw, t, hs, hV id raw t r hs hv, rest⟩
  defined := h.defined
  queued := h.queued

/-- The line of a fresh register, for a string literal of the program tied to it, with its constant queued. -/
theorem literal_line (h : p.Paired V code queue) {id : NodeId} {raw : String} {t : Option Ty}
    (hs : p.ast.get? id = some (.expr (.str raw) t)) {r : Reg} (hr : ∀ i ∈ code ++ queue, i.constantReg? ≠ some r)
    (hv : V id r) :
    p.Paired V (code ++ [.instr (.literal r ((Literal.decode raw).length + 1))])
      (queue ++ [.constant r (Literal.decode raw)]) where
  literal pre r₀ n post he := by
    rcases mem_append_split he with ⟨post₀, hc, rfl⟩ | ⟨c, rfl, hb⟩
    · obtain ⟨id₀, raw₀, t₀, hs₀, hv₀, hn₀, hpre, hpost⟩ := h.literal pre r₀ n post₀ hc
      have hne : r ≠ r₀ := by
        rintro rfl
        exact hr _ (List.mem_append_left queue (hc ▸ List.mem_append_right pre List.mem_cons_self)) rfl
      refine ⟨id₀, raw₀, t₀, hs₀, hv₀, hn₀, hpre, ?_⟩
      simpa [Item.constantOf?, hne] using hpost
    · obtain ⟨rfl, hx, rfl⟩ : c = [] ∧ Item.instr (.literal r ((Literal.decode raw).length + 1)) =
          .instr (.literal r₀ n) ∧ post = [] := by
        cases c with
        | nil => simpa using hb
        | cons j c => simp at hb
      obtain ⟨rfl, rfl⟩ : r = r₀ ∧ (Literal.decode raw).length + 1 = n := by simpa using hx
      have hnone := constantsOf_of_not_named hr
      simp only [constantsOf_append] at hnone
      refine ⟨id, raw, t, hs, hv, rfl, by simpa using (List.append_eq_nil_iff.mp hnone).1, ?_⟩
      simp [(List.append_eq_nil_iff.mp hnone).2, Item.constantOf?]
  defined pre r₀ bytes post he := by
    rcases mem_append_split he with ⟨post₀, hc, -⟩ | ⟨c, -, hb⟩
    · exact h.defined pre r₀ bytes post₀ hc
    · cases c with
      | nil => simp at hb
      | cons j c => simp at hb
  queued r₀ bytes hq := by
    rcases List.mem_append.mp hq with hq | hq
    · obtain ⟨n, hn⟩ := h.queued r₀ bytes hq
      exact ⟨n, List.mem_append_left _ hn⟩
    · obtain ⟨rfl, -⟩ : r₀ = r ∧ bytes = Literal.decode raw := by simpa using hq
      exact ⟨_, List.mem_append_right code List.mem_cons_self⟩

end Paired

variable {p : Program}

/-- The invariant of a generator: its code and its queued constants are paired, each line with the string literal
whose operand the generator records as the line's register, and every register that names a constant is behind its
base's counter, so the next one is fresh. -/
structure ConstantsPaired (p : Program) (g : Generator) : Prop where
  paired : p.Paired (fun id r => g.values[id]? = some (.reg r)) g.mark.code g.queued
  behind : ∀ i ∈ g.mark.code ++ g.queued, ∀ r, i.constantReg? = some r → r.index < g.nextIndex r.base

/-- The invariant reads only the code, the queued constants, the counters and the operands recorded. -/
theorem ConstantsPaired.of_eq {g g' : Generator} (hg : p.ConstantsPaired g) (hm : g'.mark.code = g.mark.code)
    (hq : g'.queued = g.queued) (hn : g'.nextIndex = g.nextIndex) (hv : g'.values = g.values) :
    p.ConstantsPaired g' :=
  ⟨hm ▸ hq ▸ hv ▸ hg.paired, hm ▸ hq ▸ hn ▸ hg.behind⟩

/-- An empty generator has its constants paired. -/
theorem constantsPaired_new (layout : Layout) : p.ConstantsPaired (Generator.new layout) :=
  ⟨Paired.nil, fun i hi => by simp [Generator.new, mark, Generator.queued] at hi⟩

/-- Every step of lowering keeps constants paired with their lines. -/
theorem stepsKeep_constantsPaired : p.StepsKeep p.ConstantsPaired where
  frame g g' hg hl hc hv hq _ :=
    hg.of_eq (by simp [mark, hl]) (by simp [queued, hq]) (funext fun b => by simp [nextIndex, hc]) hv
  item g k i hg hi hc := by
    have hn : ∀ j ∈ i.code, j.constantReg? = none := by
      intro j hj
      cases i with
      | instr x => cases x <;> simp_all [Item.code, Item.constantReg?]
      | constant r bytes => exact absurd rfl (hc r bytes)
      | _ => simp_all [Item.code, Item.constantReg?]
    have hm : { g with lines := g.lines.push (.item k i) }.mark.code = g.mark.code ++ i.code := by
      simp [mark, Line.code]
    refine ⟨hm ▸ hg.paired.append hn, fun j hj r hr => ?_⟩
    rw [hm, List.append_assoc] at hj
    rcases List.mem_append.mp hj with hj | hj
    · exact hg.behind j (List.mem_append_left _ hj) r hr
    · rcases List.mem_append.mp hj with hj | hj
      · simp [hn j hj] at hr
      · exact hg.behind j (List.mem_append_right _ hj) r hr
  blank g hg := hg.of_eq (by simp) rfl rfl rfl
  fresh g b hg := by
    refine ⟨hg.paired, fun i hi r hr => ?_⟩
    have := hg.behind i hi r hr
    rw [nextIndex_withFresh]
    split
    · subst_vars
      omega
    · exact this
  value g id v hg hn := by
    refine ⟨hg.paired.mono fun id₀ raw t r hs hv => ?_, hg.behind⟩
    have hne : id ≠ id₀ := fun e => hn raw t (e ▸ hs)
    simpa [Std.HashMap.getElem?_insert, hne] using hv
  literal g id raw t hg hs hnone := by
    -- the registers named so far are behind the counter of their base, so the literal's is new
    have hnew : ∀ i ∈ g.mark.code ++ g.queued, i.constantReg? ≠ some (g.nextReg "str") := fun i hi hr =>
      Nat.lt_irrefl _ (hg.behind i hi _ hr)
    let lead : List Item := if g.closed then [.label ⟨g.labels⟩] else []
    have hlead : ∀ i ∈ lead, i.constantReg? = none := by
      intro i hi
      simp only [lead] at hi
      split at hi <;> simp_all [Item.constantReg?]
    have hr : ∀ i ∈ (g.mark.code ++ lead) ++ g.queued, i.constantReg? ≠ some (g.nextReg "str") := by
      intro i hi
      simp only [List.append_assoc, List.mem_append] at hi
      rcases hi with hi | hi | hi
      · exact hnew i (List.mem_append_left _ hi)
      · simp [hlead i hi]
      · exact hnew i (List.mem_append_right _ hi)
    have hV : ∀ id₀ raw₀ t₀ r, p.ast.get? id₀ = some (.expr (.str raw₀) t₀) → g.values[id₀]? = some (.reg r) →
        (g.withLiteral id (Literal.decode raw)).values[id₀]? = some (.reg r) := by
      intro id₀ raw₀ t₀ r _ hv
      have hne : id ≠ id₀ := by
        rintro rfl
        simp [hnone] at hv
      simpa [withLiteral, Std.HashMap.getElem?_insert, hne] using hv
    refine ⟨?_, fun i hi r hr' => ?_⟩
    · rw [code_withLiteral, queued_withLiteral, ← List.append_assoc]
      exact ((hg.paired.append hlead).mono hV).literal_line hs hr (by simp [withLiteral])
    · have hup : r.index < g.nextIndex r.base ∨ r = g.nextReg "str" →
          r.index < (g.withLiteral id (Literal.decode raw)).nextIndex r.base := by
        rw [nextIndex_withLiteral, nextIndex_withFresh]
        rintro (h | rfl)
        · split
          · rename_i he
            rw [← he] at h
            omega
          · exact h
        · simp [nextReg]
      rw [code_withLiteral, queued_withLiteral] at hi
      simp only [List.append_assoc, List.mem_append, List.mem_singleton] at hi
      rcases hi with hi | hi | rfl | hi | rfl
      · exact hup (.inl (hg.behind i (List.mem_append_left _ hi) r hr'))
      · simp [hlead i hi] at hr'
      · exact hup (.inr (by simpa [Item.constantReg?] using hr'.symm))
      · exact hup (.inl (hg.behind i (List.mem_append_right _ hi) r hr'))
      · exact hup (.inr (by simpa [Item.constantReg?] using hr'.symm))
  flush g hg := by
    refine ⟨?_, fun i hi r hr => ?_⟩
    · rw [code_withConstantsWritten, queued_withConstantsWritten, withConstantsWritten_values]
      exact hg.paired.flush fun i hi => mem_queued hi
    · rw [code_withConstantsWritten, queued_withConstantsWritten, List.append_nil] at hi
      rw [nextIndex_withConstantsWritten]
      exact hg.behind i hi r hr

/-- The constant after a line is the one the line takes the address of, at its size. -/
theorem Paired.size_of_defined (h : p.Paired V code []) {pre post : List Item} {r : Reg} {bytes : List UInt8}
    (hc : code = pre ++ .constant r bytes :: post) : .instr (.literal r (bytes.length + 1)) ∈ pre := by
  obtain ⟨n, hn⟩ := h.defined pre r bytes post hc
  obtain ⟨pre₁, mid, rfl⟩ := List.append_of_mem hn
  obtain ⟨id, raw, t, -, -, rfl, -, hpost⟩ := h.literal pre₁ r n (mid ++ .constant r bytes :: post) (by simp [hc])
  simp only [List.append_nil, constantsOf_append, constantsOf_cons, Item.constantOf?] at hpost
  obtain ⟨-, rfl, -⟩ : constantsOf r mid = [] ∧ bytes = Literal.decode raw ∧ constantsOf r post = [] := by
    rcases h₁ : constantsOf r mid with _ | ⟨x, xs⟩
    · simpa [h₁] using hpost
    · simp [h₁] at hpost
  simp

/-- Whatever a session emits, each emit succeeding or failing, its finished text is the rendering of a listing in
which each line that takes the address of a string constant lowers a string literal of the program, the one whose
operand the session records as the line's register, takes the size of the literal's bytes with the terminating NUL,
and is followed by exactly one definition of its constant, with those bytes, and preceded by none; every definition
of a constant comes after such a line, at its size, and its bytes are written so that reading them back gives them
again. -/
theorem session_constants_paired (layout : Layout) (steps : List SessionStep) :
    ∃ lines : List Line, ((Generator.new layout).afterSteps p steps).finish = render layout.indentation lines ∧
      (∀ pre r n post, lines.flatMap Line.code = pre ++ .instr (.literal r n) :: post →
        ∃ id raw t, p.ast.get? id = some (.expr (.str raw) t) ∧
          ((Generator.new layout).afterSteps p steps).values[id]? = some (.reg r) ∧
          n = (Literal.decode raw).length + 1 ∧ constantsOf r pre = [] ∧ constantsOf r post = [Literal.decode raw]) ∧
      (∀ pre r bytes post, lines.flatMap Line.code = pre ++ .constant r bytes :: post →
        .instr (.literal r (bytes.length + 1)) ∈ pre ∧ Literal.unescape (Literal.encode bytes).toList = some bytes) := by
  have hP : p.StepsKeep p.ConstantsPaired := stepsKeep_constantsPaired
  have hL : p.StepsKeep fun g => g.layout = layout := stepsKeep_layout layout
  let g := (Generator.new layout).afterSteps p steps
  have hf : p.ConstantsPaired g.withConstantsWritten.withRuntimeWritten :=
    hP.withRuntimeWritten (hP.flush g (hP.afterSteps (constantsPaired_new layout) steps))
  have hl : g.withConstantsWritten.withRuntimeWritten.layout = layout :=
    hL.withRuntimeWritten (hL.flush g (hL.afterSteps rfl steps))
  have hp : p.Paired (fun id r => g.values[id]? = some (.reg r)) g.withConstantsWritten.withRuntimeWritten.mark.code [] := by
    simpa using hf.paired
  refine ⟨_, by rw [finish_eq, hl], fun pre r n post hc => ?_, fun pre r bytes post hc => ?_⟩
  · simpa using hp.literal pre r n post hc
  · exact ⟨hp.size_of_defined hc, Literal.unescape_encode bytes⟩

/-- A function that returns zero, int f () { return 0; }. -/
def zeroUnit : Program where
  symbols := { functions := #[{ name := "f", result := .int, params := [] }] }
  ast := { nodes := #[.expr (.int 0) (some .int), .stmt (.ret 0), .stmt (.define 0 1)], roots := #[2] }

/-- The pairing is one of the listing, not of the text: an indentation that holds a line break and the definition of
a constant writes that definition into the text before every indented line, with no line that takes its address. -/
theorem indentation_forges_constant :
    textLines (((Generator.new ⟨"@str.1 = private unnamed_addr constant [1 x i8] c\"\\00\"\n", false⟩).afterSteps
        zeroUnit [.emit 2]).finish) =
      ["define i32 @f() \x7b", "entry:", "@str.1 = private unnamed_addr constant [1 x i8] c\"\\00\"", "ret i32 0",
        "\x7d", "", ""] := by
  decide +kernel

end Program

end Lowering
