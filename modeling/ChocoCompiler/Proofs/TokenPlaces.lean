import ChocoCompiler.Proofs.LineColumns

/-!
# The places of tokens

Every token starts at a place of the text and ends at a boundary, and a word is not empty (`Token.Placed`). A
line break ends a line only if a word has been read in it; behind a carriage return none has, so the token for
the end of a line never stands at the line feed that belongs to it (`Layout.Follows`).
-/

namespace ChocoCompiler

/-- The token points into the text, and a word covers some of it. -/
structure Token.Placed (t : Token) (cs : List Char) : Prop where
  points : t.span.PointsInto cs
  word : t.kind.isLayout = false → t.span.lo < t.span.hi

/-- Behind a carriage return no word of the line has been read. -/
def Layout.Follows (l : Layout) (before : List Char) : Prop :=
  before.getLast? = some '\r' → l.fresh = true

section Places

theorem isBoundary_append (before rest : List Char) : IsBoundary (before ++ rest) (byteLength before) :=
  ⟨before, rest, rfl, rfl⟩

theorem getLast?_append_ne {before piece : List Char} (hne : piece ≠ [])
    (hpiece : ∀ c ∈ piece, isLineBreak c = false) : (before ++ piece).getLast? ≠ some '\r' := by
  rw [List.getLast?_append_of_ne_nil _ hne]
  intro h
  have hbreak := hpiece _ (List.mem_of_getLast? h)
  cases hbreak

theorem isPlace_inline (before : List Char) {front : List Char} (rest : List Char) {c : Char}
    (hfront : ∀ c ∈ front, isLineBreak c = false) (hc : isSolid c = true)
    (hhead : (front ++ rest).head? = some c) :
    IsPlace (before ++ (front ++ rest)) (byteLength (before ++ front)) := by
  refine ⟨before ++ front, rest, (List.append_assoc ..).symm, rfl, fun ⟨hr, hn⟩ => ?_⟩
  rcases hnil : front with _ | ⟨d, ds⟩
  · rw [hnil, List.nil_append, hn] at hhead
    cases hhead
    cases hc
  · exact getLast?_append_ne (by simp [hnil]) hfront hr

theorem pointsInto_point (before cs : List Char) {c : Char} (hc : isSolid c = true) :
    (Span.point (byteLength before)).PointsInto (before ++ c :: cs) where
  lo := by
    simpa using isPlace_inline before (c :: cs) (List.forall_mem_nil _) hc rfl
  hi := isBoundary_append ..

end Places

/-! ## Steps -/

section Steps

variable {l m : Layout} {before piece cs rest : List Char} {ts : List Token}

theorem layoutTokens_placed {kinds : List TokenKind} {pos : Nat} (hk : ∀ k ∈ kinds, k.isLayout = true)
    (hpos : (Span.point pos).PointsInto cs) : ∀ t ∈ layoutTokens pos kinds, t.Placed cs := by
  intro t ht
  obtain ⟨k, hkind, rfl⟩ := List.mem_map.1 ht
  exact ⟨hpos, fun h => by simp [hk k hkind] at h⟩

theorem Layout.Follows.of_inline {l : Layout} (hne : piece ≠ [])
    (hpiece : ∀ c ∈ piece, isLineBreak c = false) : l.Follows (before ++ piece) :=
  fun h => absurd h (getLast?_append_ne hne hpiece)

theorem Cut.placed (h : Cut (byteLength before) l piece rest ts m) (hl : l.Follows before) :
    (∀ t ∈ ts, t.Placed (before ++ piece ++ rest)) ∧ m.Follows (before ++ piece) := by
  cases h with
  | space => exact ⟨by simp, .of_inline (by simp) (by simp [isLineBreak])⟩
  | tab => exact ⟨by simp, .of_inline (by simp) (by simp [isLineBreak])⟩
  | @lineBreak c _ hc =>
    refine ⟨?_, fun _ => rfl⟩
    split_ifs with hfresh
    · simp
    · simp only [List.forall_mem_singleton]
      refine ⟨⟨⟨before, c :: rest, by simp, rfl, fun h => hfresh (hl h.1)⟩, ?_⟩, fun h => by cases h⟩
      have := isBoundary_append (before ++ [c]) rest
      simpa [Span.hi, byteLength_append, byteLength, utf8Size_of_isLineBreak hc] using this
  | comment hcs => exact ⟨by simp, .of_inline (by simp) (by simpa [isLineBreak] using hcs)⟩
  | @token c cs _ kind kinds inner hc hl hs =>
    have hinline : ∀ d ∈ c :: cs, isLineBreak d = false :=
      List.forall_mem_cons.2 ⟨(isSolid_iff.1 hc).2.2.1, (Cut.token hc hl hs : Cut 0 l _ _ _ _).tail_inline⟩
    refine ⟨?_, .of_inline (by simp) hinline⟩
    have hpoint := pointsInto_point before (cs ++ rest) hc
    rw [List.append_assoc, List.cons_append]
    refine List.forall_mem_append.2 ⟨layoutTokens_placed (Layout.enter_isLayout hl).1 hpoint, ?_⟩
    simp only [List.forall_mem_singleton]
    refine ⟨⟨hpoint.lo, ?_⟩, fun _ => ?_⟩
    · have := isBoundary_append (before ++ c :: cs) rest
      simpa [Span.hi, byteLength_append] using this
    · have := byteLength_pos (List.cons_ne_nil c cs)
      simp only [Span.hi]
      omega

theorem Scans.placed {pos : Nat} (h : Scans pos l cs rest ts m) (hpos : byteLength before = pos)
    (hl : l.Follows before) : (∀ t ∈ ts, t.Placed (before ++ cs ++ rest)) ∧ m.Follows (before ++ cs) := by
  induction h generalizing before with
  | nil => exact ⟨by simp, by simpa using hl⟩
  | cons hcut _ ih =>
    subst hpos
    obtain ⟨hts, hm⟩ := hcut.placed hl
    obtain ⟨hus, hn⟩ := ih (byteLength_append ..) hm
    rw [← List.append_assoc] at hts
    rw [← List.append_assoc before]
    exact ⟨List.forall_mem_append.2 ⟨hts, hus⟩, hn⟩

end Steps

/-! ## Errors -/

namespace Lexeme

theorem string_fault {cs : List Char} {n : Nat} {b : Bool} {f : LexFault} (h : string cs n b = .error f) :
    f.skip = 0 ∨ ∃ k, f.skip = n + 1 + k ∧ ∀ c ∈ cs.take k, isLineBreak c = false := by
  fun_induction string cs n b with
  | case1 =>
    cases h
    exact .inl rfl
  | case2 =>
    cases h
    exact .inl rfl
  | case3 c cs n b hc ih =>
    rcases ih h with h | ⟨k, hk, hcs⟩
    · exact .inl h
    · refine .inr ⟨k + 2, by omega, ?_⟩
      simp only [List.take_succ_cons, List.forall_mem_cons]
      exact ⟨by decide, isLineBreak_of_isEscapable hc, hcs⟩
  | case4 =>
    cases h
    exact .inr ⟨0, rfl, by simp⟩
  | case5 => cases h
  | case6 =>
    cases h
    exact .inr ⟨0, rfl, by simp⟩
  | case7 c cs n b _ _ _ hbreak ih =>
    rcases ih h with h | ⟨k, hk, hcs⟩
    · exact .inl h
    · refine .inr ⟨k + 1, by omega, ?_⟩
      simp only [List.take_succ_cons, List.forall_mem_cons]
      exact ⟨by simpa using hbreak, hcs⟩

theorem scan_fault {c : Char} {cs : List Char} {f : LexFault} (h : scan c cs = .error f) :
    ∀ d ∈ (c :: cs).take f.skip, isLineBreak d = false := by
  have hzero : f.skip = 0 → ∀ d ∈ (c :: cs).take f.skip, isLineBreak d = false := by
    intro h
    simp [h]
  unfold scan at h
  split at h
  case h_16 =>
    rcases string_fault h with h | ⟨k, hk, hcs⟩
    · exact hzero h
    · rw [hk, Nat.zero_add, Nat.add_comm, List.take_succ_cons, List.forall_mem_cons]
      exact ⟨by decide, hcs⟩
  case h_4 | h_7 =>
    unfold pair at h
    split_ifs at h
    cases h
    exact hzero rfl
  case h_17 =>
    split_ifs at h
    cases h
    exact hzero rfl
  all_goals cases h

end Lexeme

theorem LexFault.locate_points {before cs : List Char} {c : Char} {f : LexFault} (hc : isSolid c = true)
    (h : Lexeme.scan c cs = .error f) :
    (f.locate (byteLength before) (c :: cs)).span.PointsInto (before ++ c :: cs) where
  lo := by
    have hfront := Lexeme.scan_fault h
    have hplace := isPlace_inline before ((c :: cs).drop f.skip) hfront hc
      (by rw [List.take_append_drop]; rfl)
    rwa [List.take_append_drop, byteLength_append] at hplace
  hi := by
    have hend := isBoundary_append (before ++ (c :: cs).take f.skip ++ ((c :: cs).drop f.skip).take f.width)
      (((c :: cs).drop f.skip).drop f.width)
    rw [List.append_assoc, List.take_append_drop, List.append_assoc, List.take_append_drop] at hend
    simpa only [LexFault.locate, Span.hi, byteLength_append] using hend

section Lex

variable {source : String}

theorem lex_error_placed {e : Located LexError} (h : (lex source).error = some e) :
    e.span.PointsInto source.toList := by
  obtain ⟨front, rest, ts, m, out, hsource, hscans, hend⟩ := exists_scans 0 {} source.toList
  rw [lex, hsource, hscans.lexFrom_eq, lexFrom_settles hend, Lexed.error_after] at h
  rw [hsource]
  rw [Nat.zero_add] at hend
  cases hend with
  | done => cases h
  | misfit hc =>
    cases h
    exact pointsInto_point _ _ hc
  | fault hc hl hs =>
    cases h
    exact LexFault.locate_points hc hs

/-- The tokens of a text have their places one after the other, and the last of them is empty. -/
theorem lex_tokens_placed (h : (lex source).error = none) :
    ∃ ts eof, (lex source).tokens = ts ++ [eof] ∧ (∀ t ∈ ts ++ [eof], t.Placed source.toList) ∧
      (ts ++ [eof]).Pairwise (fun t u => t.span.hi ≤ u.span.lo) ∧ eof.span.hi ≤ eof.span.lo := by
  obtain ⟨ts, m, hscans, htokens⟩ := Scans.of_error_eq_none h
  rw [Nat.zero_add] at htokens
  have haccounts : Accounts [] source.toList ([] ++ []) ts := hscans.accounts rfl
  have hordered := (haccounts.append (.points m.close_isLayout fun _ => rfl)).ordered
  have hplaced : ∀ t ∈ ts, t.Placed ([] ++ source.toList ++ []) := (hscans.placed rfl fun h => by cases h).1
  rw [List.nil_append, List.append_nil] at hplaced
  have hend : (Span.point (byteLength source.toList)).PointsInto source.toList :=
    ⟨⟨source.toList, [], by simp, rfl, by simp⟩, ⟨source.toList, [], by simp, rfl⟩⟩
  obtain ⟨kinds, hclose⟩ : ∃ kinds, m.close = kinds ++ [.eof] := ⟨_, rfl⟩
  have hsplit : ts ++ layoutTokens (byteLength source.toList) m.close =
      ts ++ layoutTokens (byteLength source.toList) kinds ++
        [⟨.eof, [], .point (byteLength source.toList)⟩] := by
    rw [hclose, layoutTokens, List.map_append, ← List.append_assoc]
    rfl
  refine ⟨_, _, htokens.trans hsplit, ?_, ?_, Nat.le_refl _⟩ <;> rw [← hsplit]
  · exact List.forall_mem_append.2 ⟨hplaced, layoutTokens_placed m.close_isLayout hend⟩
  · exact hordered

end Lex

end ChocoCompiler
