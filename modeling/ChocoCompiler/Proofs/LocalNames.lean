import ChocoCompiler.Proofs.ModulesEmitted
import ChocoCompiler.Proofs.ProgramGrammar
import ChocoCompiler.Proofs.Temporaries

/-!
# Local names

The arguments, slots, temporaries and labels of a function share one space of names. They come from
different sources: `arg.p` for a parameter, `x.addr` for the slot of a variable, a few hints with
numbers for other slots, `t` with a number, and stems with numbers for labels. Names of programs are
words, so their dots tell these apart, with one exception: for a parameter `addr` and a variable `arg`
both are called `arg.addr`. The names of a function are pairwise distinct unless it has both
(`Function.Emitted.localNames_nodup`).
-/

namespace ChocoCompiler

open Ir

namespace Ir

/-- The names of everything that has a name in a function. -/
def Function.localNames (f : Function) : List String :=
  f.params.map Prod.fst ++ f.slots.map Slot.name ++ f.blocks.flatMap Block.defs ++ f.labels

/-! ## Slots -/

/-- What the slot of a function can be asked for. -/
def IsHint (h : String) : Prop := h ∈ slotHints ∨ ∃ x, h = x ++ ".addr"

theorem endsInDigit_append {s t : String} (ht : t ≠ "") : endsInDigit (s ++ t) = endsInDigit t := by
  unfold endsInDigit
  rw [String.toList_append, List.getLast?_append]
  cases hl : t.toList.getLast? with
  | none => exact absurd (String.toList_eq_nil_iff.1 (List.getLast?_eq_none_iff.1 hl)) ht
  | some c => rfl

theorem IsHint.not_endsInDigit {h : String} (hh : IsHint h) : endsInDigit h = false := by
  rcases hh with hh | ⟨x, rfl⟩
  · have hall : ∀ h ∈ slotHints, endsInDigit h = false := by decide
    exact hall h hh
  · exact endsInDigit_append (by decide)

theorem endsInDot_append_dot (s : String) : EndsInDot (s ++ ".") := by
  unfold EndsInDot
  rw [String.toList_append]
  exact List.getLast?_concat

theorem slotName_inj {h h' : String} {n n' : Nat} (hh : IsHint h) (hh' : IsHint h')
    (he : slotName h n = slotName h' n') : h = h' ∧ n = n' := by
  unfold slotName at he
  split_ifs at he with hn hn' hn'
  · exact ⟨he, by omega⟩
  · have := hh.not_endsInDigit
    rw [he, endsInDigit_numbered] at this
    cases this
  · have := hh'.not_endsInDigit
    rw [← he, endsInDigit_numbered] at this
    cases this
  · obtain ⟨hs, hn⟩ := numbered_inj (endsInDot_append_dot h) (endsInDot_append_dot h') he
    exact ⟨(String.append_left_inj _).1 hs, hn⟩

namespace Draft

variable {d d' : Draft}

/-- Slots get the names that they are asked for, with numbers from the second time on. -/
structure Slots (d : Draft) : Prop where
  hint : ∀ h ∈ d.builder.slotHints, h ∈ slotHints ∨ ∃ x ∈ d.vars, h = x ++ ".addr"
  var : ∀ x ∈ d.vars, x ++ ".addr" ∈ d.builder.slotHints
  name : ∀ s ∈ d.builder.function.slots, ∃ h n, n < d.builder.slotHints.count h ∧ s.name = slotName h n
  first : ∀ h ∈ d.builder.slotHints, h ∈ d.builder.function.slots.map Slot.name
  nodup : (d.builder.function.slots.map Slot.name).Nodup

theorem Slots.isHint (hd : d.Slots) {h : String} {n : Nat} (hn : n < d.builder.slotHints.count h) :
    IsHint h := by
  rcases hd.hint h (List.count_pos_iff.1 (Nat.zero_lt_of_lt hn)) with hh | ⟨x, -, rfl⟩
  · exact .inl hh
  · exact .inr ⟨x, rfl⟩

theorem Slots.alloca (hd : d.Slots) {hint : String} {ty : Ty} {vars : List String}
    (hvars : ∀ x ∈ d.vars, x ∈ vars) (hhint : hint ∈ slotHints ∨ ∃ x ∈ vars, hint = x ++ ".addr")
    (hnew : ∀ x ∈ vars, x ∈ d.vars ∨ hint = x ++ ".addr") :
    Slots { d with builder := (Build.alloca hint ty d.builder).2, vars := vars } := by
  obtain ⟨new, hslots, hname⟩ := alloca_slots hint ty d.builder
  have hints : (Build.alloca hint ty d.builder).2.slotHints = d.builder.slotHints ++ [hint] := rfl
  have hcount : ∀ h, (d.builder.slotHints ++ [hint]).count h =
      d.builder.slotHints.count h + if hint == h then 1 else 0 := by
    intro h
    rw [List.count_append, List.count_singleton]
  have hisHint : IsHint hint := hhint.imp_right fun ⟨x, _, hx⟩ => ⟨x, hx⟩
  refine ⟨fun h hh => ?_, fun x hx => ?_, fun s hs => ?_, fun h hh => ?_, ?_⟩
  · rcases List.mem_append.1 hh with hh | hh
    · exact (hd.hint h hh).imp_right fun ⟨x, hx, he⟩ => ⟨x, hvars x hx, he⟩
    · rw [List.mem_singleton.1 hh]
      exact hhint
  · rcases hnew x hx with hx | hx
    · exact List.mem_append_left _ (hd.var x hx)
    · exact List.mem_append_right _ (List.mem_singleton.2 hx.symm)
  · simp only [hslots] at hs
    simp only [hints, hcount]
    rcases List.mem_append.1 hs with hs | hs
    · obtain ⟨h, n, hn, he⟩ := hd.name s hs
      exact ⟨h, n, by omega, he⟩
    · rw [List.mem_singleton.1 hs]
      exact ⟨hint, _, by simp, hname⟩
  · simp only [hslots, List.map_append, List.mem_append]
    by_cases hmem : h ∈ d.builder.slotHints
    · exact .inl (hd.first h hmem)
    · obtain rfl : h = hint :=
        List.mem_singleton.1 ((List.mem_append.1 hh).resolve_left hmem)
      rw [List.count_eq_zero.2 hmem] at hname
      exact .inr (List.mem_singleton.2 hname.symm)
  · simp only [hslots, List.map_append]
    refine List.nodup_append.2 ⟨hd.nodup, List.nodup_singleton _, fun a ha b hb => ?_⟩
    obtain ⟨s, hs, rfl⟩ := List.mem_map.1 ha
    obtain ⟨h, n, hn, he⟩ := hd.name s hs
    rw [List.mem_singleton.1 hb, he, hname]
    intro heq
    obtain ⟨rfl, rfl⟩ := slotName_inj (hd.isHint hn) hisHint heq
    omega

theorem Step.slots (hs : Step d d') (hd : d.Slots) : d'.Slots := by
  cases hs with
  | slot hint ty hhint => exact hd.alloca (fun _ hx => hx) (.inl hhint) fun _ hx => .inl hx
  | varSlot x ty =>
    refine hd.alloca (fun _ hx => List.mem_append_left _ hx)
      (.inr ⟨x, List.mem_append_right _ (List.mem_singleton_self x), rfl⟩) fun y hy => ?_
    rcases List.mem_append.1 hy with hy | hy
    · exact .inl hy
    · exact .inr (by rw [List.mem_singleton.1 hy])
  | number => exact ⟨hd.hint, hd.var, hd.name, hd.first, hd.nodup⟩
  | block => exact ⟨hd.hint, hd.var, hd.name, hd.first, hd.nodup⟩
  | dead => exact ⟨hd.hint, hd.var, hd.name, hd.first, hd.nodup⟩
  | move => exact ⟨hd.hint, hd.var, hd.name, hd.first, hd.nodup⟩
  | define => exact ⟨hd.hint, hd.var, hd.name, hd.first, hd.nodup⟩
  | effect => exact ⟨hd.hint, hd.var, hd.name, hd.first, hd.nodup⟩
  | close => exact ⟨hd.hint, hd.var, hd.name, hd.first, hd.nodup⟩

theorem start_slots (name : String) (ret : Ty) (params : List (String × Ty)) :
    (start name ret params).Slots :=
  ⟨nofun, nofun, nofun, nofun, .nil⟩

theorem Emits.slots (he : Emits d d') (hd : d.Slots) : d'.Slots :=
  he.keeps (fun _ _ hs => hs.slots) hd

end Draft

/-! ## Names of different kinds -/

/-- What stands before the first dot of a name. -/
def firstPart (s : String) : List Char := s.toList.takeWhile (· ≠ '.')

theorem firstPart_append_dot (s t : String) : firstPart (s ++ "." ++ t) = firstPart s := by
  unfold firstPart
  rw [String.toList_append, String.toList_append, List.append_assoc, List.takeWhile_append]
  split_ifs with hlen
  · have hs := (List.takeWhile_prefix _).eq_of_length hlen
    rw [hs]
    exact List.append_nil _
  · rfl

theorem firstPart_numbered {s : String} (hs : EndsInDot s) (n : Nat) :
    firstPart (s ++ toString n) = firstPart s := by
  obtain ⟨r, rfl⟩ := hs.eq_append
  have hr := firstPart_append_dot r ""
  rw [String.append_empty] at hr
  rw [firstPart_append_dot, hr]

theorem firstPart_slotName (h : String) (n : Nat) : firstPart (slotName h n) = firstPart h := by
  unfold slotName
  split_ifs
  · rfl
  · exact firstPart_append_dot h _

/-- The label of a block of a function. -/
def IsBlockLabel (l : String) : Prop :=
  (∃ stem ∈ "dead." :: labelStems, ∃ k : Nat, l = stem ++ toString k) ∨ l ∈ "entry" :: libraryLabels

theorem Draft.Valid.isBlockLabel {d : Draft} (h : d.Valid) {l : String}
    (hl : l ∈ d.builder.function.labels) : IsBlockLabel l := by
  rcases h.label_shape hl with (⟨stem, hstem, k, -, rfl⟩ | hl) | ⟨k, -, rfl⟩ | rfl
  · exact .inl ⟨stem, List.mem_cons_of_mem _ hstem, k, rfl⟩
  · exact .inr (List.mem_cons_of_mem _ hl)
  · exact .inl ⟨"dead.", List.mem_cons_self .., k, rfl⟩
  · exact .inr (List.mem_cons_self ..)

theorem label_ne_argument {l : String} (hl : IsBlockLabel l) (p : String) : l ≠ "arg." ++ p := by
  have hstems : ∀ s ∈ "dead." :: labelStems, firstPart s ≠ "arg".toList := by decide
  have hfixed : ∀ s ∈ "entry" :: libraryLabels, firstPart s ≠ "arg".toList := by decide
  have harg : firstPart ("arg." ++ p) = "arg".toList := firstPart_append_dot "arg" p
  rintro rfl
  rcases hl with ⟨stem, hstem, k, he⟩ | hl
  · rw [he, firstPart_numbered (endsInDot_of_mem_labelStems stem hstem)] at harg
    exact hstems stem hstem harg
  · exact hfixed _ hl harg

theorem label_ne_tempName {l : String} (hl : IsBlockLabel l) (n : Nat) : l ≠ tempName n := by
  have hstems : ∀ s ∈ "dead." :: labelStems, '.' ∈ s.toList := by decide
  have hfixed : ∀ s ∈ libraryLabels, '.' ∈ s.toList := by decide
  rcases hl with ⟨stem, hstem, k, rfl⟩ | hl
  · refine ne_tempName_of_dot ?_ n
    rw [String.toList_append]
    exact List.mem_append_left _ (hstems stem hstem)
  · rcases List.mem_cons.1 hl with rfl | hl
    · intro he
      have := congrArg (·.toList.head?) he
      rw [tempName, String.toList_append] at this
      cases this
    · exact ne_tempName_of_dot (hfixed l hl) n

theorem IsHint.not_mem_labels {h : String} (hh : IsHint h) :
    h ∉ "entry" :: libraryLabels ∧ h ++ "." ∉ "dead." :: labelStems := by
  rcases hh with hh | ⟨x, rfl⟩
  · have hall : ∀ h ∈ slotHints,
        h ∉ "entry" :: libraryLabels ∧ h ++ "." ∉ "dead." :: labelStems := by decide
    exact hall h hh
  · have hfixed : ∀ s ∈ "entry" :: libraryLabels, ¬ ".addr".toList <:+ s.toList := by decide
    have hstems : ∀ s ∈ "dead." :: labelStems, ¬ ".addr.".toList <:+ s.toList := by decide
    refine ⟨fun hm => hfixed _ hm ?_, fun hm => hstems _ hm ?_⟩
    · rw [String.toList_append]
      exact List.suffix_append ..
    · rw [String.append_assoc, String.toList_append]
      exact List.suffix_append ..

theorem label_ne_slotName {l : String} (hl : IsBlockLabel l) {h : String} (hh : IsHint h) (n : Nat) :
    l ≠ slotName h n := by
  obtain ⟨hfixed, hstems⟩ := hh.not_mem_labels
  intro he
  unfold slotName at he
  split_ifs at he
  · subst he
    rcases hl with ⟨stem, hstem, k, rfl⟩ | hl
    · have := hh.not_endsInDigit
      rw [endsInDigit_numbered] at this
      cases this
    · exact hfixed hl
  · rcases hl with ⟨stem, hstem, k, rfl⟩ | hl
    · have hdot := endsInDot_of_mem_labelStems stem hstem
      obtain ⟨rfl, -⟩ := numbered_inj hdot (endsInDot_append_dot h) he
      exact hstems hstem
    · have := not_endsInDigit_of_mem_libraryLabels l hl
      rw [he, endsInDigit_numbered] at this
      cases this

theorem parts_words {s t : String} (hs : '.' ∉ s.toList) (ht : '.' ∉ t.toList) :
    parts (s ++ "." ++ t) = [s.toList, t.toList] := by
  rw [parts_append_dot, parts_eq_singleton hs, parts_eq_singleton ht]
  rfl

theorem varSlot_eq_argument {x p : String} (hx : '.' ∉ x.toList) (hp : '.' ∉ p.toList) {n : Nat}
    (h : slotName (x ++ ".addr") n = "arg." ++ p) : x = "arg" ∧ p = "addr" := by
  have haddr : parts (x ++ ".addr") = [x.toList, "addr".toList] := by
    have := parts_words hx (t := "addr") (by decide)
    rwa [String.append_assoc] at this
  have hparts := congrArg parts h
  rw [show "arg." ++ p = "arg" ++ "." ++ p from rfl, parts_words (by decide) hp] at hparts
  unfold slotName at hparts
  split_ifs at hparts
  · rw [haddr] at hparts
    simp only [List.cons.injEq, String.toList_inj] at hparts
    exact ⟨hparts.1, hparts.2.1.symm⟩
  · rw [parts_append_dot, haddr, parts_toString_nat] at hparts
    simp at hparts

theorem fixedSlot_ne_argument {h p : String} (hh : h ∈ slotHints) (n : Nat) :
    slotName h n ≠ "arg." ++ p := by
  have hall : ∀ h ∈ slotHints, firstPart h ≠ "arg".toList := by decide
  intro he
  have hfirst := congrArg firstPart he
  rw [firstPart_slotName] at hfirst
  exact hall h hh (hfirst.trans (firstPart_append_dot "arg" p))

/-! ## Finished functions -/

theorem close_label (ret : Ty) (b : Block) : (b.close ret).label = b.label := by
  unfold Block.close
  split_ifs <;> rfl

theorem close_defs (ret : Ty) (b : Block) : (b.close ret).defs = b.defs := by
  unfold Block.close
  split_ifs <;> rfl

theorem finish_localNames (b : Builder) : b.finish.localNames = b.function.localNames := by
  have hlabels : b.finish.labels = b.function.labels := by
    show (b.function.blocks.map _).map _ = _
    rw [List.map_map]
    exact List.map_congr_left fun blk _ => close_label _ blk
  have hdefs : b.finish.blocks.flatMap Block.defs = b.function.blocks.flatMap Block.defs := by
    show (b.function.blocks.map _).flatMap _ = _
    rw [List.flatMap_map]
    exact congrArg (List.flatMap · _) (funext fun blk => close_defs _ blk)
  unfold Function.localNames
  rw [hlabels, hdefs]
  rfl

theorem Draft.Temps.flatMap_nodup {d : Draft} (h : d.Temps) :
    (d.builder.function.blocks.flatMap Block.defs).Nodup := by
  refine List.nodup_flatMap.2 ⟨fun b hb => ?_, ?_⟩
  · obtain ⟨i, hi⟩ := List.mem_iff_getElem?.1 hb
    exact h.nodup hi
  · rw [List.pairwise_iff_getElem]
    intro i j hi hj hij x hx hx'
    have := h.unique (List.getElem?_eq_getElem hi) (List.getElem?_eq_getElem hj) hx hx'
    omega

namespace Function.Emitted

variable {f : Function} {ps vs : List String}

/-- The names of a function are pairwise distinct unless an argument and the slot of a variable are both
called `arg.addr`. -/
theorem localNames_nodup (h : f.Emitted ps vs) (hn : ps.Nodup) (hps : ∀ p ∈ ps, '.' ∉ p.toList)
    (hvs : ∀ x ∈ vs, '.' ∉ x.toList) : f.localNames.Nodup ↔ ¬ ("addr" ∈ ps ∧ "arg" ∈ vs) := by
  obtain ⟨d, he, rfl, rfl⟩ := h.steps
  have hv := he.valid (Draft.start_valid ..)
  have ht := he.temps (Draft.start_temps ..)
  have hs := he.slots (Draft.start_slots ..)
  have hparams : d.builder.function.params.map Prod.fst = ps.map ("arg." ++ ·) := h.params
  have hdefs : ∀ x ∈ d.builder.function.blocks.flatMap Block.defs, ∃ n, x = tempName n := by
    intro x hx
    obtain ⟨b, hb, hx⟩ := List.mem_flatMap.1 hx
    obtain ⟨i, hi⟩ := List.mem_iff_getElem?.1 hb
    obtain ⟨n, -, hn⟩ := ht.drawn hi hx
    exact ⟨n, hn⟩
  have hlabel : ∀ x ∈ d.builder.function.ambient ++ d.builder.function.blocks.flatMap Block.defs,
      ∀ l ∈ d.builder.function.labels, x ≠ l := by
    rintro x hx l hl rfl
    have hl := hv.isBlockLabel hl
    rcases List.mem_append.1 hx with hx | hx
    · rcases List.mem_append.1 hx with hx | hx
      · rw [hparams] at hx
        obtain ⟨p, -, hp⟩ := List.mem_map.1 hx
        exact label_ne_argument hl p hp.symm
      · obtain ⟨s, hslot, rfl⟩ := List.mem_map.1 hx
        obtain ⟨hint, n, hcount, hname⟩ := hs.name s hslot
        exact label_ne_slotName hl (hs.isHint hcount) n hname
    · obtain ⟨n, rfl⟩ := hdefs x hx
      exact label_ne_tempName hl n rfl
  have hargs : (ps.map ("arg." ++ ·)).Nodup :=
    hn.map fun _ _ => (String.append_right_inj _).1
  -- Only arguments and slots can share a name.
  have hclash : d.builder.finish.localNames.Nodup ↔
      ∀ x ∈ ps.map ("arg." ++ ·), ∀ y ∈ d.builder.function.slots.map Slot.name, x ≠ y := by
    rw [finish_localNames]
    unfold Function.localNames
    rw [List.nodup_append, List.nodup_append, List.nodup_append, hparams]
    refine ⟨fun hall => hall.1.1.2.2, fun hdisj => ?_⟩
    refine ⟨⟨⟨hargs, hs.nodup, hdisj⟩, ht.flatMap_nodup, ?_⟩, hv.labels_nodup, ?_⟩
    · rintro x hx _ hy rfl
      obtain ⟨n, rfl⟩ := hdefs x hy
      rw [← hparams] at hx
      exact h.ambient_ne_temp hx n rfl
    · rw [← hparams]
      exact hlabel
  rw [hclash]
  constructor
  · rintro hdisj ⟨haddr, harg⟩
    exact hdisj _ (List.mem_map_of_mem haddr) _ (hs.first _ (hs.var _ harg)) rfl
  · rintro hno x hx _ hy rfl
    obtain ⟨p, hp, rfl⟩ := List.mem_map.1 hx
    obtain ⟨s, hslot, hname⟩ := List.mem_map.1 hy
    obtain ⟨hint, n, hcount, hslotName⟩ := hs.name s hslot
    rw [hslotName] at hname
    rcases hs.hint hint (List.count_pos_iff.1 (Nat.zero_lt_of_lt hcount)) with hh | ⟨v, hv, rfl⟩
    · exact fixedSlot_ne_argument hh n hname
    · obtain ⟨rfl, rfl⟩ := varSlot_eq_argument (hvs v hv) (hps p hp) hname
      exact hno ⟨hp, hv⟩

end Function.Emitted

end Ir

theorem Library.localNames_nodup {f : Function} {ns : List String × List String}
    (hns : ns ∈ Library.localNames ++ Library.listLocalNames) (h : f.Emitted ns.1 ns.2) :
    f.localNames.Nodup := by
  have hall : ∀ ns ∈ Library.localNames ++ Library.listLocalNames, ns.1.Nodup ∧
      (∀ x ∈ ns.1, '.' ∉ x.toList) ∧ (∀ x ∈ ns.2, '.' ∉ x.toList) ∧ "addr" ∉ ns.1 := by decide
  obtain ⟨hn, hps, hvs, haddr⟩ := hall ns hns
  exact (h.localNames_nodup hn hps hvs).2 fun hclash => haddr hclash.1

theorem FuncDef.localNames_nodup {env : TypeEnv} {p : Program TypedTag} (hp : p.Checked env)
    (hwords : ∀ x ∈ p.names, IsWord x) {g : FuncDef TypedTag} (hg : .func g ∈ p.definitions)
    {f : Function} (h : f.Emitted g.paramNames (g.paramNames ++ g.varNames)) :
    f.localNames.Nodup ↔ ¬ ("addr" ∈ g.paramNames ∧ "arg" ∈ g.paramNames ++ g.varNames) := by
  obtain ⟨inner, hinner⟩ := hp.function g hg
  have hdot : ∀ x ∈ g.paramNames ++ g.varNames, '.' ∉ x.toList := fun x hx =>
    (hwords x (List.mem_flatMap.2 ⟨_, hg, List.mem_cons_of_mem _ hx⟩)).not_mem_dot
  exact h.localNames_nodup (List.nodup_append.1 hinner.nodup).1
    (fun x hx => hdot x (List.mem_append_left _ hx)) hdot

/-- In the module of an accepted source all names of a function are pairwise distinct, if and only if no
function of the source has a parameter `addr` together with a parameter or variable `arg`. -/
theorem lowerProgram_localNames {options : Options} {names : NameTable} {source : String}
    {p : Program Tag} {typed : Program TypedTag} {m : Module}
    (hparse : (parseProgram names source).1 = .ok p) (hcheck : checkProgram p = .ok typed)
    (hlower : lowerProgram options typed = .ok m) :
    (∀ f ∈ m.functions, f.localNames.Nodup) ↔
      ∀ g ∈ typed.functions, ¬ ("addr" ∈ g.paramNames ∧ "arg" ∈ g.paramNames ++ g.varNames) := by
  have hchecked := checkProgram_checked hcheck
  have hwords : ∀ x ∈ typed.names, IsWord x := by
    rw [checkProgram_names hcheck]
    exact parseProgram_names hparse
  obtain ⟨shapes, hall⟩ := Program.lower_emitted hchecked (phase_eq_ok.1 hlower)
  constructor
  · intro hnodup g hg
    have hm : g.localNames ∈ typed.functions.map FuncDef.localNames := List.mem_map_of_mem hg
    obtain ⟨f, hf, he⟩ := exists_of_mem_right hall (b := g.localNames) (by simp [hm])
    exact (FuncDef.localNames_nodup hchecked hwords (mem_functions.1 hg) he).1 (hnodup f hf)
  · intro hno f hf
    obtain ⟨ns, hns, he⟩ := exists_of_mem_left hall hf
    simp only [List.mem_append, List.mem_map, List.mem_flatMap, List.mem_singleton] at hns
    rcases hns with ((hns | ⟨g, hg, rfl⟩) | rfl) | ⟨_, -, hns⟩
    · exact Library.localNames_nodup (List.mem_append_left _ hns) he
    · exact (FuncDef.localNames_nodup hchecked hwords (mem_functions.1 hg) he).2 (hno g hg)
    · exact (he.localNames_nodup .nil nofun nofun).2 nofun
    · exact Library.localNames_nodup (List.mem_append_right _ hns) he

/-- A function with the parameter `addr`, and one with the variable `arg`. -/
def distinctNames : String :=
  "def f(addr: int):\n    x: int = 0\n    x = addr if addr > 0 and x < 1 else 2\n" ++
    "def g(x: int) -> int:\n    arg: int = 1\n    return arg\nf(g(1))\n"

theorem distinctNames_nodup : ∃ p typed m, (parseProgram .initial distinctNames).1 = .ok p ∧
    checkProgram p = .ok typed ∧ lowerProgram {} typed = .ok m ∧
      ((∀ f ∈ m.functions, f.localNames.Nodup) ↔
        ∀ g ∈ typed.functions, ¬ ("addr" ∈ g.paramNames ∧ "arg" ∈ g.paramNames ++ g.varNames)) := by
  have h : (compile {} .initial distinctNames).1.isOk = true := by decide +kernel
  obtain ⟨p, typed, m, hp, ht, hm⟩ := compile_isOk h
  exact ⟨p, typed, m, hp, ht, hm, lowerProgram_localNames hp ht hm⟩

/-- A function with the parameters `arg` and `addr`. -/
def sharedName : String := "def f(arg: int, addr: int):\n    pass\n"

/-- The slot of the one parameter has the name of the other argument. -/
theorem sharedName_not_nodup : ∃ p typed m, (parseProgram .initial sharedName).1 = .ok p ∧
    checkProgram p = .ok typed ∧ lowerProgram {} typed = .ok m ∧
      ∃ f ∈ m.functions, ¬ f.localNames.Nodup := by
  have heval : ((do
      let typed ← checkProgram (← (parseProgram .initial sharedName).1)
      let m ← lowerProgram {} typed
      return m.functions.all fun f => decide f.localNames.Nodup) : Except Diagnostic Bool).toOption =
        some false := by decide +kernel
  obtain ⟨p, hp, h⟩ := bind_eq_ok.1 (toOption_eq_some.1 heval)
  obtain ⟨typed, ht, h⟩ := bind_eq_ok.1 h
  obtain ⟨m, hm, h⟩ := bind_eq_ok.1 h
  obtain ⟨f, hf, hn⟩ := List.all_eq_false.1 (Except.ok.inj h)
  exact ⟨p, typed, m, hp, ht, hm, f, hf, fun hnodup => hn (decide_eq_true hnodup)⟩

end ChocoCompiler
