import ChocoCompiler.Proofs.ParserMoves
import ChocoCompiler.Proofs.ProgramGrammar

/-!
# The names that parsing enters

A table of names only grows at its end, so numbers keep their names and names their numbers. By its moves a
parser enters the names of exactly those tokens that it has read (`Cursor.Reaches.entered`), wherever it
stops, and a parser that succeeds has read all of them. So the table after parsing a source is known from the
tokens that have been read (`parse_entersNames`).
-/

namespace ChocoCompiler

/-- The names that tokens spell, in order. -/
def identifierNames (ts : List Token) : List String :=
  (ts.filter (·.kind == .identifier)).map Token.name

theorem identifierNames_append (ts us : List Token) :
    identifierNames (ts ++ us) = identifierNames ts ++ identifierNames us := by
  simp [identifierNames]

theorem identifierNames_of_eq {t : Token} (h : t.kind = .identifier) : identifierNames [t] = [t.name] := by
  simp [identifierNames, h]

theorem identifierNames_of_ne {t : Token} (h : t.kind ≠ .identifier) : identifierNames [t] = [] := by
  simp [identifierNames, h]

/-! ## Tables -/

namespace NameTable

variable {t t' : NameTable} {x : String} {xs : List String}

/-- The names among `xs` that a table does not have, each where it first occurs. -/
def newNames (t : NameTable) (xs : List String) : List String := (xs.removeAll t.names).eraseDups

theorem names_intern (t : NameTable) (x : String) :
    (t.intern x).2.names = if x ∈ t.names then t.names else t.names ++ [x] := by
  unfold intern lookup
  by_cases hx : x ∈ t.names
  · obtain ⟨n, hn⟩ := Option.ne_none_iff_exists'.1 fun h => List.idxOf?_eq_none_iff.1 h hx
    simp [hn, hx]
  · simp [List.idxOf?_eq_none_iff.2 hx, hx]

theorem mem_newNames : x ∈ t.newNames xs ↔ x ∈ xs ∧ x ∉ t.names := by
  simp [newNames, List.removeAll, List.mem_eraseDups]

theorem newNames_concat (xs : List String) (x : String) : t.newNames (xs ++ [x]) =
    t.newNames xs ++ if x ∈ t.names ++ t.newNames xs then [] else [x] := by
  have hnew : x ∈ t.names ++ t.newNames xs ↔ x ∈ t.names ∨ x ∈ xs := by
    rw [List.mem_append, mem_newNames]
    tauto
  have hsplit : (xs ++ [x]).removeAll t.names = xs.removeAll t.names ++ [x].removeAll t.names :=
    List.filter_append ..
  rw [newNames, hsplit, List.eraseDups_append, ← newNames]
  congr 1
  simp only [hnew]
  by_cases ht : x ∈ t.names
  · simp [ht, List.cons_removeAll]
  · by_cases hx : x ∈ xs <;> simp [ht, hx, List.removeAll, List.eraseDups_cons]

theorem names_intern_newNames (h : t'.names = t.names ++ t.newNames xs) (x : String) :
    (t'.intern x).2.names = t.names ++ t.newNames (xs ++ [x]) := by
  rw [names_intern, newNames_concat, h]
  split_ifs
  · rw [List.append_nil]
  · rw [List.append_assoc]

theorem get?_mono (h : t.names <+: t'.names) {n : Handle} (hn : t.get? n = some x) :
    t'.get? n = some x := by
  obtain ⟨more, hmore⟩ := h
  cases n with
  | zero => cases hn
  | succ n =>
    have hn : t.names[n]? = some x := hn
    show t'.names[n]? = some x
    rw [← hmore, List.getElem?_append_left (List.getElem?_eq_some_iff.1 hn).1, hn]

theorem lookup_of_prefix (h : t.names <+: t'.names) {n : Handle} (hn : t.lookup x = some n) :
    t'.lookup x = some n := by
  obtain ⟨more, hmore⟩ := h
  obtain ⟨i, hi, rfl⟩ := Option.map_eq_some_iff.1 hn
  refine Option.map_eq_some_iff.2 ⟨i, ?_, rfl⟩
  have hi : t.names.findIdx? (· == x) = some i := hi
  show t'.names.findIdx? (· == x) = some i
  rw [← hmore, List.findIdx?_append, hi, Option.some_or]

/-- The table `after` has the names of `before` under the same numbers, and behind them the new ones among
those that `read` spells. -/
structure Extends (before after : NameTable) (read : List Token) : Prop where
  get? : ∀ n x, before.get? n = some x → after.get? n = some x
  lookup : ∀ x n, before.lookup x = some n → after.lookup x = some n
  names : after.names = before.names ++ before.newNames (identifierNames read)

theorem Extends.of_names {read : List Token} (h : t'.names = t.names ++ t.newNames (identifierNames read)) :
    t.Extends t' read := by
  have hprefix : t.names <+: t'.names := h ▸ List.prefix_append ..
  exact ⟨fun _ _ => get?_mono hprefix, fun _ _ => lookup_of_prefix hprefix, h⟩

end NameTable

/-! ## Moves -/

namespace Cursor

variable {c c' : Cursor}

theorem rest_eq_cons (heof : c.eof.kind ≠ .identifier) (h : c.next.kind = .identifier) :
    c.rest = c.next :: c.moved.rest := by
  unfold next at h ⊢
  unfold moved
  cases hr : c.rest with
  | nil =>
    rw [hr] at h
    exact absurd h heof
  | cons t ts => rfl

/-- The names entered are those of the tokens that have been read. -/
theorem Reaches.entered (h : c.Reaches c') (heof : c.eof.kind ≠ .identifier) :
    ∃ read, c.rest = read ++ c'.rest ∧
      c'.names.names = c.names.names ++ c.names.newNames (identifierNames read) := by
  induction h with
  | refl => exact ⟨[], rfl, by simp [identifierNames, NameTable.newNames]⟩
  | @tail c₁ c₂ hc₁ hmove ih =>
    obtain ⟨read, hread, hnames⟩ := ih
    cases hmove with
    | number => exact ⟨read, hread, hnames⟩
    | enter hname =>
      rw [← (Reaches.suffix hc₁).1] at heof
      refine ⟨read ++ [c₁.next], ?_, ?_⟩
      · rw [hread, List.append_assoc, rest_eq_cons heof hname]
        rfl
      · rw [identifierNames_append, identifierNames_of_eq hname]
        exact NameTable.names_intern_newNames hnames _
    | pass hother =>
      -- at the end nothing is read
      cases hrest : c₁.rest with
      | nil => exact ⟨read, by rw [hread, moved, hrest]; rfl, hnames⟩
      | cons t ts =>
        have ht : c₁.next = t := by rw [next, hrest]; rfl
        rw [ht] at hother
        refine ⟨read ++ [t], ?_, ?_⟩
        · rw [hread, moved, hrest, List.append_assoc]
          rfl
        · rw [identifierNames_append, identifierNames_of_ne hother, List.append_nil]
          exact hnames

end Cursor

/-! ## Sources -/

/-- The outcome of a parser on a source: a source without tokens leaves the table as it is; else the names of
the tokens before the place where the parser stops are entered, and these are the names of all tokens if it
succeeds. -/
def EntersRead {α : Type} (p : Parse α) (names : NameTable) (source : String)
    (outcome : Except Diagnostic α × NameTable) : Prop :=
  match readTokens source with
  | .error _ => outcome.2 = names
  | .ok tokens => ∃ read, tokens = read ++ (p.stop (Cursor.start names tokens)).ahead ∧
      names.Extends outcome.2 read ∧
      ∀ a, outcome.1 = .ok a → identifierNames read = identifierNames tokens

section EntersRead

variable {α : Type} {p : Parse α}

theorem parseWith_snd (p : Parse α) (names : NameTable) {source : String} {tokens : List Token}
    (h : readTokens source = .ok tokens) :
    (parseWith p names source).2 = (p.stop (Cursor.start names tokens)).names := by
  unfold parseWith Parse.run Parse.stop
  rw [h]
  cases hp : p (Cursor.start names tokens) <;> simp only [hp]

/-- A parser that moves enters the names it reads, and those are all if the end comes next where it succeeds. -/
theorem parseWith_entersRead (hmoves : Parse.Moves (fun _ => True) p)
    (hend : ∀ {c a c' ts}, c.At ts → p c = .ok a c' → c'.At [.kind .eof]) (names : NameTable)
    (source : String) : EntersRead p names source (parseWith p names source) := by
  unfold EntersRead
  split
  · rename_i e he
    unfold parseWith
    rw [he]
  · rename_i tokens htokens
    have hstart := (readTokens_ended htokens).at_start names
    have hreach := hmoves (Cursor.start names tokens) trivial
    obtain ⟨read, hread, hnames⟩ := hreach.entered (by simp [hstart.eof])
    have htokens_eq : tokens = read ++ (p.stop (Cursor.start names tokens)).ahead :=
      calc tokens = (Cursor.start names tokens).ahead := ((readTokens_ended htokens).ahead_start names).symm
        _ = read ++ (p.stop (Cursor.start names tokens)).ahead := by
          rw [Cursor.ahead, Cursor.ahead, hread, hreach.suffix.1, List.append_assoc]
    refine ⟨read, htokens_eq, .of_names ((parseWith_snd p names htokens).symm ▸ hnames), fun a ha => ?_⟩
    obtain ⟨tokens', c, htokens', -, hrun⟩ := parseWith_eq_ok ha
    obtain rfl : tokens' = tokens := Except.ok.inj (htokens'.symm.trans htokens)
    have hstop : p.stop (Cursor.start names tokens') = c := by rw [Parse.stop, hrun]
    have hc := hend hstart hrun
    have hrest : c.rest = [] := List.eq_nil_of_length_eq_zero (Nat.succ.inj hc.length).symm
    rw [hstop, Cursor.ahead, hrest] at htokens_eq
    rw [htokens_eq, List.nil_append, identifierNames_append, identifierNames_of_ne (by simp [hc.eof]),
      List.append_nil]

end EntersRead

/-- The names of definitions are entered into the table, and none is taken from it. -/
theorem parseProgram_entered {names : NameTable} {source : String} {p : Program Tag}
    (h : (parseProgram names source).1 = .ok p) :
    p.definitions.map (·.ident.name) ++ names.names ⊆ (parseProgram names source).2.names := by
  obtain ⟨tokens, htokens, hspelled⟩ := parseProgram_spelled h
  have henters := parseWith_entersRead Parse.program_moves (fun hc h => by
    obtain ⟨_, _, -, hc', -, rfl⟩ := Parse.program_reads hc h
    exact hc') names source
  unfold EntersRead at henters
  rw [htokens] at henters
  obtain ⟨read, -, hextends, hall⟩ := henters
  intro x hx
  refine hextends.names ▸ List.mem_append.2 ?_
  rcases List.mem_append.1 hx with hx | hx
  · obtain ⟨d, hd, rfl⟩ := List.mem_map.1 hx
    obtain ⟨t, ht, hk, hname⟩ := hspelled d.ident.name (List.mem_flatMap.2 ⟨d, hd, d.ident_mem_names⟩)
    refine or_iff_not_imp_left.2 fun hnot => NameTable.mem_newNames.2 ⟨?_, hnot⟩
    rw [hall p h]
    exact List.mem_map.2 ⟨t, List.mem_filter.2 ⟨ht, by simp [hk]⟩, hname⟩
  · exact .inl hx

/-- After parsing a program or an expression the names that were in the table have the numbers they had, and
behind them come the new names among the tokens that have been read, in the order of their first occurrence:
all of the source if it is accepted, none if its tokens cannot be read. -/
theorem parse_entersNames (names : NameTable) (source : String) :
    EntersRead .program names source (parseProgram names source) ∧
      EntersRead .loneExpression names source (parseExpr names source) := by
  refine ⟨parseWith_entersRead Parse.program_moves (fun hc h => ?_) names source,
    parseWith_entersRead Parse.loneExpression_moves (fun hc h => ?_) names source⟩
  · obtain ⟨_, _, -, hc', -, rfl⟩ := Parse.program_reads hc h
    exact hc'
  · obtain ⟨_, _, -, hc', -, rfl⟩ := Parse.loneExpression_reads hc h
    exact hc'

/-- What stands in place of a type is entered, though it is refused, and what comes behind it is not. -/
example : (parseProgram ⟨["foo", "x"]⟩ "x: int = 1\ny: bar = x\nz = x\n").2.names = ["foo", "x", "y", "bar"] := by
  decide +kernel

end ChocoCompiler
