import ChocoCompiler.Ir.Text
import ChocoCompiler.Proofs.DottedNames
import ChocoCompiler.Proofs.LibraryModule
import ChocoCompiler.Text.Location
import Mathlib.Data.List.Nodup
import Mathlib.Tactic.IntervalCases

/-!
# String constants

Texts are entered into a module one by one. The module keeps each text once, under the number of texts before
it (`ofTexts_addText`), so that equal texts are given the same pointer and different ones are not. The
definition of a constant is written byte by byte. Reading what has been written gives the bytes of the text
and a zero (`textConstants_readBack`).
-/

namespace ChocoCompiler.Ir

/-! ## Reading constants -/

/-- The value of a hexadecimal digit. -/
def hexValue? (c : Char) : Option Nat :=
  if '0' ≤ c ∧ c ≤ '9' then some (c.toNat - 48)
  else if 'A' ≤ c ∧ c ≤ 'F' then some (c.toNat - 55)
  else if 'a' ≤ c ∧ c ≤ 'f' then some (c.toNat - 87)
  else none

/-- The bytes that the inside of a string constant stands for. -/
def constantBytes : List Char → List UInt8
  | [] => []
  | '\\' :: a :: b :: cs =>
    match hexValue? a, hexValue? b with
    | some high, some low => UInt8.ofNat (16 * high + low) :: constantBytes cs
    | _, _ => String.utf8EncodeChar '\\' ++ constantBytes (a :: b :: cs)
  | c :: cs => String.utf8EncodeChar c ++ constantBytes cs

/-- The definition of a global is read as a constant array of bytes: it says how many there are, what
stands between its quotes is read as the bytes and has no quote in it, and it is a single line. -/
def Global.ReadsAs (g : Global) (bytes : List UInt8) : Prop :=
  ∃ body, g.text = "@" ++ g.name ++ " = private unnamed_addr constant [" ++ toString bytes.length ++
      " x i8] c\"" ++ String.ofList body ++ "\"" ∧
    constantBytes body = bytes ∧ '"' ∉ body ∧ ∀ c ∈ g.text.toList, isLineBreak c = false

theorem constantBytes_cons {c : Char} (hc : c ≠ '\\') (cs : List Char) :
    constantBytes (c :: cs) = String.utf8EncodeChar c ++ constantBytes cs := by
  rw [constantBytes]
  exact fun _ _ _ h _ => hc h

theorem toNat_ofNat {n : Nat} (h : n < 256) : (Char.ofNat n).toNat = n := by
  have hv : n.isValidChar := .inl (by omega)
  rw [Char.ofNat, dif_pos hv]
  rfl

theorem hexDigit_spec {n : Nat} (h : n < 16) :
    hexValue? (hexDigit n) = some n ∧ hexDigit n ≠ '"' ∧ isLineBreak (hexDigit n) = false := by
  interval_cases n <;> decide

section Bytes

variable {b : UInt8}

theorem plainByte_spec (h : isPlainByte b = true) :
    Char.ofNat b.toNat ≠ '\\' ∧ Char.ofNat b.toNat ≠ '"' ∧ isLineBreak (Char.ofNat b.toNat) = false ∧
      String.utf8EncodeChar (Char.ofNat b.toNat) = [b] := by
  have hn : (Char.ofNat b.toNat).toNat = b.toNat := toNat_ofNat b.toNat_lt
  simp only [isPlainByte, Bool.and_eq_true, decide_eq_true_eq, UInt8.le_iff_toNat_le, bne_iff_ne, ne_eq,
    ← UInt8.toNat_inj] at h
  obtain ⟨⟨⟨hlo, hhi⟩, hquote⟩, hslash⟩ := h
  have hne : ∀ c : Char, b.toNat ≠ c.toNat → Char.ofNat b.toNat ≠ c := by
    intro c hc he
    rw [he] at hn
    exact hc hn.symm
  refine ⟨hne _ hslash, hne _ hquote, ?_, ?_⟩
  · have hlf := hne '\n' fun h => by simp [h] at hlo
    have hcr := hne '\r' fun h => by simp [h] at hlo
    simp [isLineBreak, hlf, hcr]
  · have hsize : (Char.ofNat b.toNat).utf8Size = 1 := by
      rw [Char.utf8Size_eq_one_iff, UInt32.le_iff_toNat_le, Char.toNat_val, hn]
      exact hhi.trans (by decide)
    have hbyte : (Char.ofNat b.toNat).val.toUInt8 = b := by
      rw [← UInt8.toNat_inj, UInt32.toNat_toUInt8, Char.toNat_val, hn]
      exact Nat.mod_eq_of_lt b.toNat_lt
    rw [String.utf8EncodeChar_eq_singleton hsize, hbyte]

/-- A byte is read back as itself, whatever follows it. -/
theorem constantBytes_byteText (b : UInt8) (cs : List Char) :
    constantBytes (byteText b ++ cs) = b :: constantBytes cs := by
  unfold byteText
  split_ifs with hb
  · obtain ⟨hslash, -, -, hbyte⟩ := plainByte_spec hb
    rw [List.singleton_append, constantBytes_cons hslash, hbyte, List.singleton_append]
  · have hlt : b.toNat < 256 := b.toNat_lt
    have hhigh := (hexDigit_spec (n := b.toNat / 16) (by omega)).1
    have hlow := (hexDigit_spec (n := b.toNat % 16) (by omega)).1
    have hsum : 16 * (b.toNat / 16) + b.toNat % 16 = b.toNat := Nat.div_add_mod ..
    simp only [List.cons_append, List.nil_append, constantBytes, hhigh, hlow, hsum, UInt8.ofNat_toNat]

theorem constantBytes_bytesText (bs : List UInt8) : constantBytes (bytesText bs) = bs := by
  induction bs with
  | nil => rfl
  | cons b bs ih =>
    have hcons : bytesText (b :: bs) = byteText b ++ bytesText bs := List.flatMap_cons
    rw [hcons, constantBytes_byteText, ih]

theorem byteText_inline {c : Char} (h : c ∈ byteText b) : c ≠ '"' ∧ isLineBreak c = false := by
  unfold byteText at h
  split_ifs at h with hb
  · obtain ⟨-, hquote, hbreak, -⟩ := plainByte_spec hb
    rw [List.mem_singleton.1 h]
    exact ⟨hquote, hbreak⟩
  · have hlt : b.toNat < 256 := b.toNat_lt
    have hhigh := (hexDigit_spec (n := b.toNat / 16) (by omega)).2
    have hlow := (hexDigit_spec (n := b.toNat % 16) (by omega)).2
    rcases List.mem_cons.1 h with rfl | h
    · decide
    rcases List.mem_cons.1 h with rfl | h
    · exact hhigh
    · exact List.mem_singleton.1 h ▸ hlow

theorem bytesText_inline {bs : List UInt8} {c : Char} (h : c ∈ bytesText bs) :
    c ≠ '"' ∧ isLineBreak c = false := by
  obtain ⟨b, -, hc⟩ := List.mem_flatMap.1 h
  exact byteText_inline hc

theorem utf8_eq (s : String) : utf8 s = s.toUTF8.data.toList := by
  rw [String.toUTF8_eq_toByteArray, ← String.utf8Encode_toList, List.utf8Encode, List.data_toByteArray]
  rfl

theorem isLineBreak_of_all {s : String} (h : s.toList.all (!isLineBreak ·) = true) :
    ∀ c ∈ s.toList, isLineBreak c = false := fun c hc => by simpa using List.all_eq_true.1 h c hc

theorem isLineBreak_toString (n : Nat) : ∀ c ∈ (toString n).toList, isLineBreak c = false := by
  intro c hc
  rw [toList_toString_nat] at hc
  have hdigit := Nat.isDigit_of_mem_toDigits (by decide) (by decide) hc
  by_contra hbreak
  simp only [isLineBreak, Bool.not_eq_false, Bool.or_eq_true, beq_iff_eq] at hbreak
  rcases hbreak with rfl | rfl <;> exact absurd hdigit (by decide)

end Bytes

/-- The constant of a text is read as the bytes of the text and a zero. -/
theorem textConstant_readsAs (k : Nat) (s : String) :
    (⟨textName k, true, .bytes s⟩ : Global).ReadsAs (s.toUTF8.data.toList ++ [0]) := by
  have hlength : (s.toUTF8.data.toList ++ [0]).length = (utf8 s).length + 1 := by
    rw [← utf8_eq, List.length_append, List.length_singleton]
  have htext : (⟨textName k, true, .bytes s⟩ : Global).text = "@" ++ textName k ++
      " = private unnamed_addr constant [" ++ toString ((utf8 s).length + 1) ++ " x i8] c\"" ++
        String.ofList (bytesText (utf8 s ++ [0])) ++ "\"" := by
    have hopen : " = private unnamed_addr constant [" =
      " = " ++ "private unnamed_addr constant " ++ "[" := rfl
    have hclose : " x i8] c\"" = " x " ++ "i8" ++ "]" ++ " c\"" := rfl
    simp only [Global.text, Init.text, Init.ty, Ty.text, if_true, hopen, hclose, String.append_assoc]
  refine ⟨bytesText (utf8 s ++ [0]), ?_, ?_, fun h => (bytesText_inline h).1 rfl, ?_⟩
  · rw [htext, hlength]
  · rw [constantBytes_bytesText, utf8_eq]
  · rw [htext]
    simp only [textName, String.toList_append, String.toList_ofList, List.forall_mem_append]
    refine ⟨⟨⟨⟨⟨⟨?_, ?_, ?_⟩, ?_⟩, ?_⟩, ?_⟩, ?_⟩, ?_⟩
    · exact isLineBreak_of_all rfl
    · exact isLineBreak_of_all rfl
    · exact isLineBreak_toString k
    · exact isLineBreak_of_all rfl
    · exact isLineBreak_toString _
    · exact isLineBreak_of_all rfl
    · exact fun c hc => (bytesText_inline hc).2
    · exact isLineBreak_of_all rfl

theorem Module.text_line {m : Module} {g : Global} (h : g ∈ m.globals) :
    ∃ front back, m.text = front ++ "\n" ++ g.text ++ "\n" ++ back := by
  obtain ⟨before, after, hglobals⟩ := List.append_of_mem h
  obtain ⟨front, hfront⟩ : ∃ front,
      "\n" ++ String.join (before.map (lineText ·.text)) = front ++ "\n" := by
    rcases List.eq_nil_or_concat before with rfl | ⟨before, last, rfl⟩
    · exact ⟨"", rfl⟩
    · exact ⟨"\n" ++ String.join (before.map (lineText ·.text)) ++ last.text,
        by simp [lineText, String.append_assoc]⟩
  refine ⟨String.join (m.typeDefs.map (lineText ·.text)) ++ front,
    String.join (after.map (lineText ·.text)) ++ "\n" ++
      String.join (m.declarations.map fun c => lineText (declarationText c)) ++
      String.join (m.functions.map fun f => "\n" ++ f.text), ?_⟩
  have hmiddle : ∀ t, "\n" ++ (String.join (before.map (lineText ·.text)) ++ t) = front ++ ("\n" ++ t) := by
    intro t
    rw [← String.append_assoc, hfront, String.append_assoc]
  rw [Module.text, hglobals, List.map_append, List.map_cons, String.join_append, String.join_cons]
  simp only [lineText, String.append_assoc] at hmiddle ⊢
  rw [hmiddle]

/-! ## Entering texts -/

/-- The module that has the given texts, in this order. -/
def ofTexts (ts : List String) : Module where
  globals := ts.mapIdx fun k t => ⟨textName k, true, .bytes t⟩

/-- The pointer to the k-th text. -/
def textPointer (k : Nat) : Value := .global (textName k) (.ptr .i8)

theorem textPointer_inj {k l : Nat} (h : textPointer k = textPointer l) : k = l := by
  simp only [textPointer, Value.global, Value.mk.injEq, Operand.global.injEq, true_and] at h
  exact (numbered_inj (by decide) (by decide) h).2

theorem ofTexts_addText {ts : List String} (h : ts.Nodup) (s : String) :
    ∃ us, ts <+: us ∧ us.Nodup ∧ s ∈ us ∧
      (ofTexts ts).addText s = (textPointer (us.idxOf s), ofTexts us) := by
  have htexts : (ofTexts ts).texts = (ofTexts ts).globals := by
    refine List.filter_eq_self.2 fun g hg => ?_
    obtain ⟨k, hk, rfl⟩ := List.mem_mapIdx.1 hg
    rfl
  rcases (ofTexts ts).addText_cases s with ⟨g, hg, hs, he⟩ | ⟨hne, he⟩
  · rw [htexts] at hg
    obtain ⟨k, hk, rfl⟩ := List.mem_mapIdx.1 hg
    obtain rfl : ts[k] = s := Init.bytes.inj hs
    refine ⟨ts, List.prefix_rfl, h, List.getElem_mem hk, ?_⟩
    rw [he, h.idxOf_getElem]
    rfl
  · rw [htexts] at hne he
    have hs : s ∉ ts := by
      intro hm
      obtain ⟨k, hk, rfl⟩ := List.mem_iff_getElem.1 hm
      exact hne _ (List.mem_mapIdx.2 ⟨k, hk, rfl⟩) rfl
    have hlength : (ofTexts ts).globals.length = ts.length := List.length_mapIdx
    refine ⟨ts ++ [s], List.prefix_append .., ?_, by simp, ?_⟩
    · exact List.nodup_append'.2 ⟨h, List.nodup_singleton s, by simpa using hs⟩
    · rw [he, hlength, List.idxOf_append_of_notMem hs]
      simp [ofTexts, textPointer, List.mapIdx_append]

/-- Texts are given pointers to their places in one list, in which each of them stands once. -/
theorem ofTexts_mapM {ts : List String} (h : ts.Nodup) (ss : List String) :
    ∃ us, ts <+: us ∧ us.Nodup ∧ ss ⊆ us ∧
      ss.mapM Library.text (ofTexts ts) = (ss.map fun s => textPointer (us.idxOf s), ofTexts us) := by
  induction ss generalizing ts with
  | nil => exact ⟨ts, List.prefix_rfl, h, List.nil_subset _, rfl⟩
  | cons s ss ih =>
    obtain ⟨us, hts, hus, hs, hadd⟩ := ofTexts_addText h s
    obtain ⟨vs, huvs, hvs, hss, hrest⟩ := ih hus
    refine ⟨vs, hts.trans huvs, hvs, List.cons_subset.2 ⟨huvs.subset hs, hss⟩, ?_⟩
    -- The place of a text stays the same as further texts are added behind it.
    have hplace : vs.idxOf s = us.idxOf s := by
      obtain ⟨more, rfl⟩ := huvs
      exact List.idxOf_append_of_mem hs
    have htext : Library.text s (ofTexts ts) = (textPointer (us.idxOf s), ofTexts us) := hadd
    calc (s :: ss).mapM Library.text (ofTexts ts)
        = ((Library.text s (ofTexts ts)).1 :: (ss.mapM Library.text (Library.text s (ofTexts ts)).2).1,
            (ss.mapM Library.text (Library.text s (ofTexts ts)).2).2) := by
          rw [List.mapM_cons]
          rfl
      _ = _ := by rw [htext, hrest, List.map_cons, hplace]

/-- Texts are entered into an empty module. The pointers to two of them are the same just if the texts are;
the constants have different names, and the one behind a pointer, in a line of its own, is read as the
text. -/
theorem textConstants_readBack (ss : List String) :
    ∃ ps m, ss.mapM Library.text ({} : Module) = (ps, m) ∧
      ps.length = ss.length ∧ (m.globals.map Global.name).Nodup ∧
      ∀ s p, (s, p) ∈ ss.zip ps →
        (∀ t q, (t, q) ∈ ss.zip ps → (p = q ↔ s = t)) ∧
        ∃ g ∈ m.globals, p = .global g.name (.ptr .i8) ∧ (∃ k : Nat, g.name = ".str." ++ toString k) ∧
          g.ReadsAs (s.toUTF8.data.toList ++ [0]) ∧
          ∃ front back, m.text = front ++ "\n" ++ g.text ++ "\n" ++ back := by
  obtain ⟨us, -, hus, hss, he⟩ := ofTexts_mapM List.nodup_nil ss
  have hzip : ∀ {s p}, (s, p) ∈ ss.zip (ss.map fun s => textPointer (us.idxOf s)) →
      s ∈ us ∧ p = textPointer (us.idxOf s) := by
    intro s p h
    rw [← List.map_prod_left_eq_zip] at h
    obtain ⟨t, ht, h⟩ := List.mem_map.1 h
    cases h
    exact ⟨hss ht, rfl⟩
  refine ⟨_, _, he, List.length_map _, ?_, fun s p hp => ?_⟩
  · have hnames : (ofTexts us).globals.map Global.name = (List.range us.length).map textName :=
      List.ext_getElem (by simp [ofTexts]) fun k _ _ => by simp [ofTexts]
    rw [hnames]
    refine List.nodup_range.map_on fun k _ l _ h => ?_
    exact (numbered_inj (by decide) (by decide) h).2
  · obtain ⟨hs, rfl⟩ := hzip hp
    refine ⟨fun t q hq => ?_, ?_⟩
    · obtain ⟨-, rfl⟩ := hzip hq
      exact ⟨fun h => (List.idxOf_inj hs).1 (textPointer_inj h), fun h => h ▸ rfl⟩
    · have hlt := List.idxOf_lt_length_iff.2 hs
      have hg : ⟨textName (us.idxOf s), true, .bytes s⟩ ∈ (ofTexts us).globals :=
        List.mem_mapIdx.2 ⟨us.idxOf s, hlt, by rw [List.getElem_idxOf hlt]⟩
      exact ⟨_, hg, rfl, ⟨_, rfl⟩, textConstant_readsAs _ s, Module.text_line hg⟩

/-- A text with an escape sequence of its own, a text that is a quote, and the first text again. -/
theorem slashedTexts_readBack :
    ∃ ps m, ["\\41", "\"", "\\41"].mapM Library.text ({} : Module) = (ps, m) ∧
      ps = [textPointer 0, textPointer 1, textPointer 0] ∧
      ∃ g ∈ m.globals, textPointer 0 = .global g.name (.ptr .i8) ∧ g.ReadsAs [92, 52, 49, 0] := by
  have hpointers : (["\\41", "\"", "\\41"].mapM Library.text ({} : Module)).1 =
      [textPointer 0, textPointer 1, textPointer 0] := by decide +kernel
  obtain ⟨ps, m, hrun, -, -, hread⟩ := textConstants_readBack ["\\41", "\"", "\\41"]
  rw [hrun] at hpointers
  obtain rfl : ps = [textPointer 0, textPointer 1, textPointer 0] := hpointers
  obtain ⟨-, g, hg, hp, -, hbytes, -⟩ := hread "\\41" (textPointer 0) List.mem_cons_self
  have hutf8 : "\\41".toUTF8.data.toList ++ [0] = [92, 52, 49, 0] := by decide +kernel
  exact ⟨_, m, hrun, rfl, g, hg, hp, hutf8 ▸ hbytes⟩

end ChocoCompiler.Ir
