import ChocoCompiler.Proofs.CheckedPrograms

/-!
# What the parser sees of a token

The grammar knows a token as a name, as a literal or by its kind (`Token.terminal`); where it stands and how a
literal is spelled is nothing to it. A cursor is described by the terminals in front of it, the end included
(`Cursor.At`). Two notions say what a parser does with terminals. `Parse.Yields x Q`: if `x` succeeds, it has
read some of them, for which `Q` holds of the result. `Parse.Takes x ts us Q`: in front of `ts ++ us`, the
parser `x` succeeds, reads `ts` and leaves `us`.
-/

namespace ChocoCompiler

/-- A token as the grammar sees it. -/
inductive Terminal where
  | name (x : String)
  | literal (v : Literal)
  /-- A sign, a keyword or a layout token. -/
  | kind (k : TokenKind)
  deriving DecidableEq, Repr

/-- Whether the kind says all there is to say about a token. -/
def TokenKind.isPlain : TokenKind → Bool
  | identifier | integer | string | escapedString | kwNone | kwTrue | kwFalse => false
  | _ => true

namespace Token

def terminal (t : Token) : Terminal :=
  match t.literal? with
  | some (.ok v) => .literal v
  | _ => if t.kind = .identifier then .name t.name else .kind t.kind

variable {t : Token}

theorem literal?_of_isPlain (h : t.kind.isPlain = true) : t.literal? = none := by
  unfold literal?
  cases hk : t.kind <;> simp_all [TokenKind.isPlain]

theorem literal?_of_identifier (h : t.kind = .identifier) : t.literal? = none := by
  unfold literal?
  rw [h]

theorem terminal_eq_literal {v : Literal} : t.terminal = .literal v ↔ t.literal? = some (.ok v) := by
  unfold terminal
  split
  · rename_i v' h
    simp [h]
  · rename_i h
    constructor
    · intro he
      split_ifs at he
    · intro he
      exact absurd he (h v)

theorem terminal_eq_name {x : String} :
    t.terminal = .name x ↔ t.kind = .identifier ∧ t.name = x := by
  unfold terminal
  split
  · rename_i v h
    simp only [reduceCtorEq, false_iff, not_and]
    intro hk
    rw [literal?_of_identifier hk] at h
    cases h
  · split_ifs with hk <;> simp [hk]

theorem kind_of_terminal {k : TokenKind} (h : t.terminal = .kind k) : t.kind = k := by
  unfold terminal at h
  split at h
  · cases h
  · split_ifs at h
    cases h
    rfl

theorem literal?_of_terminal {k : TokenKind} (h : t.terminal = .kind k) (hk : k.isPlain = true) :
    t.literal? = none :=
  literal?_of_isPlain (kind_of_terminal h ▸ hk)

theorem terminal_eq_kind {k : TokenKind} (hk : k.isPlain = true) :
    t.terminal = .kind k ↔ t.kind = k := by
  refine ⟨kind_of_terminal, fun h => ?_⟩
  have hne : t.kind ≠ .identifier := by
    rintro hi
    rw [← h, hi] at hk
    cases hk
  simp only [terminal, literal?_of_isPlain (h ▸ hk)]
  rw [if_neg hne, h]

end Token

/-! ## Cursors -/

/-- The terminals in front of a cursor, the last of which is the only end token. -/
structure Cursor.At (c : Cursor) (ts : List Terminal) : Prop where
  terminals : ts = c.rest.map Token.terminal ++ [.kind .eof]
  eof : c.eof.kind = .eof
  inside : ∀ t ∈ c.rest, t.kind ≠ .eof

def Cursor.moved (c : Cursor) : Cursor := { c with rest := c.rest.tail }

namespace Cursor.At

variable {c : Cursor} {t : Terminal} {ts : List Terminal}

theorem exists_cons (h : c.At ts) : ∃ t us, ts = t :: us := by
  rw [h.terminals]
  cases c.rest with
  | nil => exact ⟨_, _, rfl⟩
  | cons t rest => exact ⟨_, _, rfl⟩

theorem length (h : c.At ts) : ts.length = c.rest.length + 1 := by
  rw [h.terminals]
  simp

theorem next (h : c.At (t :: ts)) : c.next.terminal = t := by
  have he := h.terminals
  unfold Cursor.next
  cases hr : c.rest with
  | nil =>
    rw [hr] at he
    cases he
    exact (Token.terminal_eq_kind rfl).2 h.eof
  | cons u rest =>
    rw [hr] at he
    cases he
    rfl

theorem second {u : Terminal} (h : c.At (t :: u :: ts)) : c.second.terminal = u := by
  have he := h.terminals
  unfold Cursor.second
  cases hr : c.rest with
  | nil =>
    rw [hr] at he
    cases he
  | cons v rest =>
    rw [hr] at he
    cases hr' : rest with
    | nil =>
      rw [hr'] at he
      cases he
      exact (Token.terminal_eq_kind rfl).2 h.eof
    | cons w rest' =>
      rw [hr'] at he
      cases he
      rfl

theorem kind_iff {k : TokenKind} (h : c.At (t :: ts)) (hk : k.isPlain = true) :
    c.next.kind = k ↔ t = .kind k := by
  rw [← h.next, Token.terminal_eq_kind hk]

theorem moved (h : c.At (t :: ts)) (ht : t ≠ .kind .eof) : c.moved.At ts := by
  have he := h.terminals
  unfold Cursor.moved
  cases hr : c.rest with
  | nil =>
    rw [hr] at he
    cases he
    exact absurd rfl ht
  | cons u rest =>
    rw [hr] at he
    cases he
    exact ⟨rfl, h.eof, fun v hv => h.inside v (hr ▸ List.mem_cons_of_mem _ hv)⟩

theorem eq_nil (h : c.At (.kind .eof :: ts)) : ts = [] := by
  have he := h.terminals
  cases hr : c.rest with
  | nil =>
    rw [hr] at he
    cases he
    rfl
  | cons u rest =>
    rw [hr] at he
    have hu := Token.kind_of_terminal (List.cons.inj he).1.symm
    exact absurd hu (h.inside u (hr ▸ List.mem_cons_self ..))

theorem eq_eof (h : c.At ts) (hn : ts.length ≤ 1) : ts = [.kind .eof] := by
  have hlen := h.length
  have hrest : c.rest = [] := List.eq_nil_of_length_eq_zero (by omega)
  rw [h.terminals, hrest]
  rfl

theorem moved_eof (h : c.At [.kind .eof]) : c.moved = c := by
  have hrest : c.rest = [] := List.eq_nil_of_length_eq_zero (Nat.succ.inj h.length).symm
  unfold Cursor.moved
  rw [hrest, List.tail_nil, ← hrest]

end Cursor.At

namespace Parse

variable {α β : Type} {k : TokenKind}

theorem run_bind {x : Parse α} {f : α → Parse β} {c c' : Cursor} {a : α} (h : x c = .ok a c') :
    (x >>= f) c = f a c' := by
  show EStateM.bind x f c = _
  unfold EStateM.bind
  rw [h]

theorem run_peek {f : Token → Parse β} {c : Cursor} : (peek >>= f) c = f c.next c := rfl

theorem run_advance {f : Token → Parse β} {c : Cursor} : (advance >>= f) c = f c.next c.moved := rfl

theorem run_remaining {f : Nat → Parse β} {c : Cursor} : (remaining >>= f) c = f c.rest.length c := rfl

/-- The terminals of items with commas between them. -/
def commas (tss : List (List Terminal)) : List Terminal := [Terminal.kind .comma].intercalate tss

@[simp] theorem commas_nil : commas [] = [] := List.intercalate_nil

@[simp] theorem commas_singleton (ts : List Terminal) : commas [ts] = ts := List.intercalate_singleton

@[simp] theorem commas_cons_cons (ts us : List Terminal) (tss : List (List Terminal)) :
    commas (ts :: us :: tss) = ts ++ .kind .comma :: commas (us :: tss) := by
  rw [commas, List.intercalate_cons_cons, List.append_assoc, List.singleton_append]
  rfl

theorem mem_commas {t : Terminal} :
    ∀ {tss : List (List Terminal)}, t ∈ commas tss → t = .kind .comma ∨ ∃ ts ∈ tss, t ∈ ts
  | [], h => (List.not_mem_nil h).elim
  | [ts], h => .inr ⟨ts, List.mem_singleton_self ts, by simpa using h⟩
  | ts :: us :: tss, h => by
    rw [commas_cons_cons, List.mem_append, List.mem_cons] at h
    rcases h with h | rfl | h
    · exact .inr ⟨ts, List.mem_cons_self .., h⟩
    · exact .inl rfl
    · exact (mem_commas h).imp_right fun ⟨vs, hvs, ht⟩ => ⟨vs, List.mem_cons_of_mem _ hvs, ht⟩

theorem mem_commas_of_mem {t : Terminal} {ts : List Terminal} (ht : t ∈ ts) :
    ∀ {tss : List (List Terminal)}, ts ∈ tss → t ∈ commas tss
  | [_], h => by simpa [List.mem_singleton.1 h] using ht
  | us :: vs :: tss, h => by
    rw [commas_cons_cons, List.mem_append, List.mem_cons]
    rcases List.mem_cons.1 h with rfl | h
    · exact .inl ht
    · exact .inr (.inr (mem_commas_of_mem ht h))

theorem length_le_commas : ∀ tss : List (List Terminal), tss.length ≤ (commas tss).length + 1
  | [] => by simp
  | [_] => by simp
  | ts :: us :: tss => by
    have ih := length_le_commas (us :: tss)
    simp only [commas_cons_cons, List.length_append, List.length_cons] at ih ⊢
    omega

theorem length_le_commas_of_mem {ts : List Terminal} :
    ∀ {tss : List (List Terminal)}, ts ∈ tss → ts.length ≤ (commas tss).length
  | [], h => (List.not_mem_nil h).elim
  | [us], h => Nat.le_of_eq (by rw [List.mem_singleton.1 h, commas_singleton])
  | us :: vs :: tss, h => by
    rw [commas_cons_cons, List.length_append, List.length_cons]
    rcases List.mem_cons.1 h with rfl | h
    · omega
    · have ih := length_le_commas_of_mem h
      omega

/-- Whether terminals start with a name and a colon. -/
def startsVarDef : List Terminal → Bool
  | .name _ :: .kind .colon :: _ => true
  | _ => false

/-! ## What has been read when a parser succeeds -/

section Yields

/-- If the parser succeeds in front of a terminal for which `P` holds, it has read some terminals, for
which `Q` holds of the result. -/
def YieldsAt (P : Terminal → Prop) (x : Parse α) (Q : α → List Terminal → Prop) : Prop :=
  ∀ ⦃c t ts a c'⦄, c.At (t :: ts) → P t → x c = .ok a c' →
    ∃ read rest, t :: ts = read ++ rest ∧ c'.At rest ∧ Q a read

abbrev Yields (x : Parse α) (Q : α → List Terminal → Prop) : Prop := YieldsAt (fun _ => True) x Q

/-- The parser reads nothing. -/
abbrev Looks (x : Parse α) : Prop := Yields x fun _ ts => ts = []

variable {P : Terminal → Prop} {Q R : α → List Terminal → Prop}

namespace YieldsAt

theorem pure {a : α} (h : Q a []) : YieldsAt P (Pure.pure a) Q := by
  intro c t ts a c' hc _ hx
  cases hx
  exact ⟨[], t :: ts, rfl, hc, h⟩

theorem bind {x : Parse α} {f : α → Parse β} {Q : β → List Terminal → Prop} (hx : YieldsAt P x R)
    (hf : ∀ a ts, R a ts → Yields (f a) fun b us => Q b (ts ++ us)) : YieldsAt P (x >>= f) Q := by
  intro c t ts b c' hc hP h
  obtain ⟨a, c₁, ha, h⟩ := run_bind_eq_ok.1 h
  obtain ⟨read, rest, he, hc₁, hR⟩ := hx hc hP ha
  obtain ⟨u, us, rfl⟩ := hc₁.exists_cons
  obtain ⟨read', rest', he', hc', hQ⟩ := hf a read hR hc₁ trivial h
  exact ⟨read ++ read', rest', by rw [he, he', List.append_assoc], hc', hQ⟩

theorem mono {x : Parse α} (hx : YieldsAt P x R) (h : ∀ a ts, R a ts → Q a ts) : YieldsAt P x Q := by
  intro c t ts a c' hc hP ha
  obtain ⟨read, rest, he, hc', hR⟩ := hx hc hP ha
  exact ⟨read, rest, he, hc', h a read hR⟩

theorem any {x : Parse α} (hx : Yields x Q) : YieldsAt P x Q :=
  fun _ _ _ _ _ hc _ h => hx hc trivial h

theorem failAt {span : Span} {e : SyntaxError} : YieldsAt P (failAt span e) Q := by
  intro c t ts a c' _ _ h
  cases h

theorem fail {e : SyntaxError} : YieldsAt P (fail e) Q := by
  intro c t ts a c' _ _ h
  cases h

theorem ite {p : Prop} [Decidable p] {x y : Parse α} (hx : YieldsAt P x Q) (hy : YieldsAt P y Q) :
    YieldsAt P (if p then x else y) Q := by
  split_ifs
  · exact hx
  · exact hy

theorem peek {f : Token → Parse α} (hf : ∀ t : Token, P t.terminal → YieldsAt (· = t.terminal) (f t) Q) :
    YieldsAt P (Parse.peek >>= f) Q := by
  intro c t ts a c' hc hP h
  have ht := hc.next
  exact hf c.next (ht ▸ hP) hc ht.symm h

theorem isAt {f : Bool → Parse α} (hk : k.isPlain = true) (ht : YieldsAt (· = .kind k) (f true) Q)
    (hf : YieldsAt P (f false) Q) : YieldsAt P (Parse.isAt k >>= f) Q := by
  intro c t ts a c' hc hP h
  have h : f (c.next.kind == k) c = .ok a c' := h
  by_cases hn : c.next.kind = k
  · rw [beq_iff_eq.2 hn] at h
    exact ht hc ((hc.kind_iff hk).1 hn) h
  · rw [beq_eq_false_iff_ne.2 hn] at h
    exact hf hc hP h

/-- A parser that reads a token first must fail if that is the end. -/
theorem first {f : Token → Parse α}
    (hend : ∀ t : Token, P t.terminal → t.kind = .eof → Yields (f t) fun _ _ => False)
    (hf : ∀ t : Token, P t.terminal → Yields (f t) fun a ts => Q a (t.terminal :: ts)) :
    YieldsAt P (Parse.advance >>= f) Q := by
  intro c t ts a c' hc ht h
  obtain rfl := hc.next
  by_cases hk : c.next.kind = .eof
  · have hnext := (Token.terminal_eq_kind rfl).2 hk
    rw [hnext] at hc
    obtain rfl := hc.eq_nil
    have hm : c.moved.At [.kind .eof] := by rwa [hc.moved_eof]
    obtain ⟨_, _, -, -, hfalse⟩ := hend c.next ht hk hm trivial h
    exact hfalse.elim
  · have hm := hc.moved fun he => hk (Token.kind_of_terminal he)
    obtain ⟨u, us, rfl⟩ := hm.exists_cons
    obtain ⟨read, rest, he, hc', hQ⟩ := hf c.next ht hm trivial h
    exact ⟨c.next.terminal :: read, rest, by rw [he, List.cons_append], hc', hQ⟩

theorem advance {f : Token → Parse α} (hP : ∀ t, P t → t ≠ .kind .eof)
    (hf : ∀ t : Token, P t.terminal → Yields (f t) fun a ts => Q a (t.terminal :: ts)) :
    YieldsAt P (Parse.advance >>= f) Q :=
  first (fun _ ht hk => absurd ((Token.terminal_eq_kind rfl).2 hk) (hP _ ht)) hf

theorem looks_remaining : Looks remaining := by
  intro c t ts a c' hc _ h
  cases h
  exact ⟨[], _, rfl, hc, rfl⟩

theorem looks_isAtVarDef : Looks isAtVarDef := by
  intro c t ts a c' hc _ h
  cases h
  exact ⟨[], _, rfl, hc, rfl⟩

theorem enterName {t : Token} : Yields (enterName t) fun x ts => x.name = t.name ∧ ts = [] := by
  intro c u ts a c' hc _ h
  cases h
  exact ⟨[], _, rfl, ⟨hc.terminals, hc.eof, hc.inside⟩, rfl, rfl⟩

theorem node {span : Span} {make : Tag → Expr Tag} :
    Yields (node span make) fun e ts => (∃ tag, e = make tag) ∧ ts = [] := by
  intro c u ts a c' hc _ h
  cases h
  exact ⟨[], _, rfl, ⟨hc.terminals, hc.eof, hc.inside⟩, ⟨_, rfl⟩, rfl⟩

theorem looks_isAt : Looks (Parse.isAt k) := by
  intro c t ts a c' hc _ h
  cases h
  exact ⟨[], _, rfl, hc, rfl⟩

theorem looks_peek : Looks Parse.peek := by
  intro c t ts a c' hc _ h
  cases h
  exact ⟨[], _, rfl, hc, rfl⟩

theorem expectToken (hk : k ≠ .eof) :
    Yields (Parse.expect k) fun t ts => t.kind = k ∧ ts = [t.terminal] := by
  intro c t ts a c' hc _ h
  obtain ⟨_, _, hp, h⟩ := run_bind_eq_ok.1 h
  cases hp
  split_ifs at h with hn
  · cases h
    obtain rfl := hc.next
    have hn : c.next.kind = k := beq_iff_eq.1 hn
    have hne : c.next.terminal ≠ .kind .eof := fun he => hk (hn ▸ Token.kind_of_terminal he)
    exact ⟨[c.next.terminal], ts, rfl, hc.moved hne, hn, rfl⟩
  · cases h

theorem expect (hp : k.isPlain = true) (hk : k ≠ .eof) :
    Yields (Parse.expect k) fun _ ts => ts = [.kind k] :=
  (expectToken hk).mono fun _ _ ⟨ht, hts⟩ => by rw [hts, (Token.terminal_eq_kind hp).2 ht]

theorem take {f : Bool → Parse α} (hp : k.isPlain = true) (hk : k ≠ .eof)
    (ht : Yields (f true) fun a ts => Q a (.kind k :: ts)) (hf : YieldsAt P (f false) Q) :
    YieldsAt P (Parse.take k >>= f) Q := by
  have he : Parse.take k >>= f =
      Parse.isAt k >>= fun b => if b then Parse.advance >>= fun _ => f true else f false := by
    rw [Parse.take, bind_assoc]
    congr 1
    funext b
    cases b <;> simp
  rw [he]
  refine .isAt hp (.advance ?_ ?_) hf
  · rintro _ rfl h
    exact hk (Terminal.kind.inj h)
  · intro t h
    rw [h]
    exact ht

theorem taken (hp : k.isPlain = true) (hk : k ≠ .eof) :
    Yields (Parse.take k) fun b ts => ts = if b then [.kind k] else [] := by
  rw [← bind_pure (Parse.take k)]
  exact .take hp hk (.pure rfl) (.pure rfl)

theorem ident : Yields Parse.ident fun x ts => ts = [.name x.name] :=
  .bind (expectToken (by decide)) fun t ts ⟨hk, hts⟩ => enterName.mono fun x us ⟨hx, hus⟩ => by
    rw [hts, hus, hx, Token.terminal_eq_name.2 ⟨hk, rfl⟩, List.append_nil]

theorem repeatWhile {more : Parse Bool} {item : Parse α} (before : List Terminal)
    (hm : Yields more fun b ts => ts = if b then before else []) (hi : Yields item Q) :
    ∀ n, Yields (repeatWhile more item n) fun as ts => ∃ items : List (α × List Terminal),
      as = items.map Prod.fst ∧ ts = items.flatMap (before ++ ·.2) ∧ ∀ i ∈ items, Q i.1 i.2
  | 0 => .pure ⟨[], rfl, rfl, fun _ h => (List.not_mem_nil h).elim⟩
  | n + 1 => by
    refine .bind hm fun b ts hb => ?_
    subst hb
    cases b with
    | false => exact .pure ⟨[], rfl, rfl, fun _ h => (List.not_mem_nil h).elim⟩
    | true =>
      refine .bind hi fun a us ha => .bind (repeatWhile before hm hi n) fun as vs has => .pure ?_
      obtain ⟨items, rfl, rfl, hitems⟩ := has
      exact ⟨(a, us) :: items, rfl, by simp, List.forall_mem_cons.2 ⟨ha, hitems⟩⟩

theorem commaItems {item : Parse α} (hi : Yields item Q) {openSpan : Span} {close : TokenKind} :
    ∀ n, Yields (commaItems openSpan close item n) fun as ts => ∃ items : List (α × List Terminal),
      as = items.map Prod.fst ∧ ts = commas (items.map Prod.snd) ∧ items ≠ [] ∧
        ∀ i ∈ items, Q i.1 i.2
  | 0 => .bind hi fun a ts ha => .pure
      ⟨[(a, ts)], rfl, by simp, List.cons_ne_nil _ _, List.forall_mem_singleton.2 ha⟩
  | n + 1 => by
    refine .bind hi fun a ts ha => .take rfl (by decide) ?_ ?_
    · refine .bind (commaItems hi n) fun as us has => .pure ?_
      obtain ⟨items, rfl, rfl, hne, hitems⟩ := has
      refine ⟨(a, ts) :: items, rfl, ?_, List.cons_ne_nil _ _, List.forall_mem_cons.2 ⟨ha, hitems⟩⟩
      obtain ⟨i, is, rfl⟩ := List.exists_cons_of_ne_nil hne
      simp
    · refine .bind looks_isAt fun b us hb => .ite ?_ (.bind looks_peek fun _ _ _ => .ite .failAt .fail)
      subst hb
      exact .pure ⟨[(a, ts)], rfl, by simp, List.cons_ne_nil _ _, List.forall_mem_singleton.2 ha⟩

theorem commaList {item : Parse α} (hi : Yields item Q) {openSpan : Span} {close : TokenKind} :
    Yields (commaList openSpan close item) fun as ts => ∃ items : List (α × List Terminal),
      as = items.map Prod.fst ∧ ts = commas (items.map Prod.snd) ∧ ∀ i ∈ items, Q i.1 i.2 := by
  refine .bind looks_isAt fun b ts hb => ?_
  subst hb
  refine .ite (.pure ?_) (.bind looks_remaining fun n us hn => ?_)
  · exact ⟨[], rfl, rfl, fun _ h => (List.not_mem_nil h).elim⟩
  · subst hn
    exact (commaItems hi n).mono fun as vs ⟨items, has, hvs, _, hitems⟩ =>
      ⟨items, has, hvs, hitems⟩

end YieldsAt

end Yields

/-! ## Terminals that a parser accepts -/

section Takes

/-- In front of `ts ++ us`, the parser reads `ts` and succeeds. -/
def Takes (x : Parse α) (ts us : List Terminal) (Q : α → Prop) : Prop :=
  ∀ ⦃c⦄, c.At (ts ++ us) → ∃ a c', x c = .ok a c' ∧ c'.At us ∧ Q a

variable {t : Terminal} {ts us vs : List Terminal} {Q R : α → Prop}

namespace Takes

theorem pure {a : α} (h : Q a) : Takes (Pure.pure a) [] us Q :=
  fun c hc => ⟨a, c, rfl, hc, h⟩

theorem bind {x : Parse α} {f : α → Parse β} {Q : β → Prop} (hx : Takes x ts (us ++ vs) R)
    (hf : ∀ a, R a → Takes (f a) us vs Q) : Takes (x >>= f) (ts ++ us) vs Q := by
  intro c hc
  rw [List.append_assoc] at hc
  obtain ⟨a, c₁, ha, hc₁, hR⟩ := hx hc
  obtain ⟨b, c', hb, hc', hQ⟩ := hf a hR hc₁
  exact ⟨b, c', (run_bind ha).trans hb, hc', hQ⟩

theorem next {x : Parse α} {f : α → Parse β} {Q : β → Prop} (hx : Takes x [t] (ts ++ us) R)
    (hf : ∀ a, R a → Takes (f a) ts us Q) : Takes (x >>= f) (t :: ts) us Q := bind hx hf

theorem look {x : Parse α} {f : α → Parse β} {Q : β → Prop} (hx : Takes x [] (ts ++ us) R)
    (hf : ∀ a, R a → Takes (f a) ts us Q) : Takes (x >>= f) ts us Q := bind hx hf

theorem last {x : Parse α} {f : α → Parse β} {Q : β → Prop} (hx : Takes x ts us R)
    (hf : ∀ a, R a → Takes (f a) [] us Q) : Takes (x >>= f) ts us Q :=
  List.append_nil ts ▸ bind hx hf

theorem mono {x : Parse α} (hx : Takes x ts us R) (h : ∀ a, R a → Q a) : Takes x ts us Q := by
  intro c hc
  obtain ⟨a, c', ha, hc', hR⟩ := hx hc
  exact ⟨a, c', ha, hc', h a hR⟩

theorem peek : Takes Parse.peek [] (t :: us) (·.terminal = t) :=
  fun c hc => ⟨c.next, c, rfl, hc, hc.next⟩

theorem remaining : Takes remaining [] us (· + 1 = us.length) :=
  fun c hc => ⟨c.rest.length, c, rfl, hc, hc.length.symm⟩

theorem advance (ht : t ≠ .kind .eof) : Takes Parse.advance [t] us (·.terminal = t) :=
  fun c hc => ⟨c.next, c.moved, rfl, hc.moved ht, hc.next⟩

theorem isAt (hk : k.isPlain = true) :
    Takes (Parse.isAt k) [] (t :: us) (· = decide (t = .kind k)) := by
  intro c hc
  refine ⟨_, c, rfl, hc, Bool.eq_iff_iff.2 ?_⟩
  rw [beq_iff_eq, hc.kind_iff hk, decide_eq_true_iff]

theorem isAtVarDef : Takes Parse.isAtVarDef [] us (· = startsVarDef us) := by
  intro c hc
  refine ⟨_, c, rfl, hc, Bool.eq_iff_iff.2 ?_⟩
  obtain ⟨t, ts, rfl⟩ := hc.exists_cons
  rw [Bool.and_eq_true, beq_iff_eq, beq_iff_eq]
  cases ts with
  | nil =>
    have ht : t = .kind .eof := by simpa using (congrArg List.getLast? hc.terminals)
    have hk := (hc.kind_iff (k := .eof) rfl).2 ht
    simp [hk, startsVarDef]
  | cons u us =>
    rw [← Token.terminal_eq_kind (k := .colon) rfl, hc.second]
    constructor
    · rintro ⟨hk, rfl⟩
      have ht := hc.next
      rw [Token.terminal_eq_name.2 ⟨hk, rfl⟩] at ht
      subst ht
      rfl
    · intro h
      unfold startsVarDef at h
      split at h
      · rename_i he
        cases he
        exact ⟨(Token.terminal_eq_name.1 hc.next).1, rfl⟩
      · cases h

theorem enterName {tok : Token} : Takes (Parse.enterName tok) [] us (·.name = tok.name) :=
  fun _ hc => ⟨_, _, rfl, ⟨hc.terminals, hc.eof, hc.inside⟩, rfl⟩

theorem node {span : Span} {make : Tag → Expr Tag} :
    Takes (Parse.node span make) [] us fun e => ∃ tag, e = make tag :=
  fun _ hc => ⟨_, _, rfl, ⟨hc.terminals, hc.eof, hc.inside⟩, _, rfl⟩

theorem exprCount : Takes Parse.exprCount [] us fun _ => True := fun c hc => ⟨_, c, rfl, hc, trivial⟩

theorem expectToken (ht : t ≠ .kind .eof) (hk : ∀ tok : Token, tok.terminal = t → tok.kind = k) :
    Takes (Parse.expect k) [t] us (·.terminal = t) := by
  have hpeek : Takes Parse.peek [] ([t] ++ us) (·.terminal = t) := .peek
  refine .look hpeek fun tok htok => ?_
  rw [if_pos (beq_iff_eq.2 (hk tok htok))]
  exact .advance ht

theorem expect (hp : k.isPlain = true) (hk : k ≠ .eof) :
    Takes (Parse.expect k) [.kind k] us fun _ => True :=
  (expectToken (by simpa using hk) fun _ => (Token.terminal_eq_kind hp).1).mono fun _ _ => trivial

theorem ident {x : String} : Takes Parse.ident [.name x] us (·.name = x) :=
  .next (expectToken (by simp) fun _ h => (Token.terminal_eq_name.1 h).1) fun _ h =>
    enterName.mono fun _ hx => hx.trans (Token.terminal_eq_name.1 h).2

theorem take (hp : k.isPlain = true) (hk : k ≠ .eof) : Takes (Parse.take k) [.kind k] us (· = true) := by
  refine .look (.isAt hp) fun b hb => ?_
  subst hb
  rw [if_pos (by simp)]
  exact .next (.advance (by simpa using hk)) fun _ _ => .pure rfl

theorem take_ne (hp : k.isPlain = true) (ht : t ≠ .kind k) :
    Takes (Parse.take k) [] (t :: us) (· = false) := by
  refine .look (.isAt hp) fun b hb => ?_
  subst hb
  rw [if_neg (by simpa using ht)]
  exact .pure rfl

theorem ok_flatMap {f : β → List Terminal} {before : List Terminal} {Ok : List Terminal → Prop}
    (hok : Ok us) : ∀ {items : List β}, (∀ b ∈ items, ∀ vs, Ok vs → Ok (before ++ (f b ++ vs))) →
      Ok (items.flatMap (before ++ f ·) ++ us)
  | [], _ => hok
  | b :: bs, h => by
    obtain ⟨hb, hbs⟩ := List.forall_mem_cons.1 h
    rw [List.flatMap_cons, List.append_assoc, List.append_assoc]
    exact hb _ (ok_flatMap hok hbs)

/-- Items that stand one after the other, each behind the same terminals. What comes after an item is of
the form `Ok`. -/
theorem repeatWhile {more : Parse Bool} {item : Parse α} {R : β → α → Prop} {f : β → List Terminal}
    {before : List Terminal} {Ok : List Terminal → Prop} (hend : Takes more [] us (· = false)) (hok : Ok us) :
    ∀ {items : List β} {n : Nat}, items.length ≤ n →
      (∀ b ∈ items, ∀ vs, Ok vs → Ok (before ++ (f b ++ vs)) ∧
        Takes more before (f b ++ vs) (· = true) ∧ Takes item (f b) vs (R b)) →
      Takes (repeatWhile more item n) (items.flatMap (before ++ f ·)) us (List.Forall₂ R items)
  | [], 0, _, _ => .pure .nil
  | [], n + 1, _, _ => .look hend fun _ h => by rw [h]; exact .pure .nil
  | b :: bs, n + 1, hn, h => by
    obtain ⟨hb, hbs⟩ := List.forall_mem_cons.1 h
    obtain ⟨-, hm, hi⟩ := hb _ (ok_flatMap hok fun b hb vs hvs => (hbs b hb vs hvs).1)
    rw [List.flatMap_cons, List.append_assoc]
    rw [← List.append_assoc] at hm
    refine .bind hm fun _ ht => ?_
    rw [ht]
    exact .bind hi fun a ha =>
      .last (repeatWhile hend hok (Nat.le_of_succ_le_succ hn) hbs) fun as has => .pure (.cons ha has)

theorem commaItems {item : Parse α} {R : β → α → Prop} {f : β → List Terminal} {close : TokenKind}
    {openSpan : Span} (hc : close.isPlain = true) (hne : close ≠ .comma) :
    ∀ {items : List β} {n : Nat}, items ≠ [] → items.length ≤ n + 1 →
      (∀ b ∈ items, ∀ k vs, k = .comma ∨ k = close → Takes item (f b) (.kind k :: vs) (R b)) →
      Takes (commaItems openSpan close item n) (commas (items.map f)) (.kind close :: us)
        (List.Forall₂ R items)
  | [b], 0, _, _, h => by
    rw [List.map_singleton, commas_singleton]
    exact .last (h b (List.mem_singleton_self b) close us (.inr rfl)) fun a ha =>
      .pure (.cons ha .nil)
  | [b], n + 1, _, _, h => by
    rw [List.map_singleton, commas_singleton]
    refine .last (h b (List.mem_singleton_self b) close us (.inr rfl)) fun a ha =>
      .look (.take_ne rfl (by simpa using hne)) fun _ ht => ?_
    rw [ht]
    refine .look (.isAt hc) fun _ ht => ?_
    rw [ht, decide_eq_true rfl]
    exact .pure (.cons ha .nil)
  | b :: b' :: bs, n + 1, _, hn, h => by
    obtain ⟨hb, hbs⟩ := List.forall_mem_cons.1 h
    rw [List.map_cons, List.map_cons, commas_cons_cons]
    refine .bind (hb .comma _ (.inl rfl)) fun a ha => .next (.take rfl (by decide)) fun _ ht => ?_
    rw [ht, ← List.map_cons]
    exact .last (commaItems hc hne (List.cons_ne_nil _ _) (Nat.le_of_succ_le_succ hn) hbs) fun as has =>
      .pure (.cons ha has)

theorem commaList {item : Parse α} {R : β → α → Prop} {f : β → List Terminal} {close : TokenKind}
    {openSpan : Span} (hc : close.isPlain = true) (hne : close ≠ .comma) {items : List β}
    (hstart : ∀ b ∈ items, ∃ t ts, f b = t :: ts ∧ t ≠ .kind close)
    (h : ∀ b ∈ items, ∀ k vs, k = .comma ∨ k = close → Takes item (f b) (.kind k :: vs) (R b)) :
    Takes (commaList openSpan close item) (commas (items.map f)) (.kind close :: us)
      (List.Forall₂ R items) := by
  cases items with
  | nil =>
    refine .look (.isAt hc) fun _ ht => ?_
    rw [ht, decide_eq_true rfl]
    exact .pure .nil
  | cons b bs =>
    obtain ⟨t, ts, hts, htc⟩ := hstart b (List.mem_cons_self ..)
    obtain ⟨vs, hvs⟩ : ∃ vs, commas ((b :: bs).map f) = t :: vs := by
      cases bs with
      | nil => exact ⟨ts, by rw [List.map_singleton, commas_singleton, hts]⟩
      | cons b' bs => exact ⟨_, by rw [List.map_cons, List.map_cons, commas_cons_cons, hts]; rfl⟩
    have hat : Takes (Parse.isAt close) [] (commas ((b :: bs).map f) ++ .kind close :: us) (· = false) := by
      rw [hvs]
      exact (Takes.isAt hc).mono fun _ h => by rw [h, decide_eq_false htc]
    refine .look hat fun _ ht => ?_
    rw [ht]
    refine .look .remaining fun n hn => commaItems hc hne (List.cons_ne_nil _ _) ?_ h
    have hl := length_le_commas ((b :: bs).map f)
    rw [List.length_append, List.length_cons] at hn
    rw [List.length_map] at hl
    omega

end Takes

end Takes

end Parse

end ChocoCompiler
