import Netlist.Proofs.Parser.Reads

/-!
What parsers ensure. Whatever a parser reads when all goes well, what it gives, the tokens it read
and the tokens it left are in a given relation. The rules follow the ways to build a parser, and
branches in which something is reported need not be looked at.
-/
namespace Netlist.Parser

open Syntax

variable {α β : Type}

/-- With the tokens `r` ahead in the file, `x` gives only such values, reads only such tokens and
leaves only such tokens as `Q` allows. The names entered by then are among `N`. -/
def Ensures (file : Nat) (N : Names) (r : List Token) (x : ParserM α)
    (Q : α → List Token → List Token → Prop) : Prop :=
  ∀ c s ts a c' s', c.file = file → c.rest = r → Reads x c s ts a c' s' → s'.names.Extends N →
    Q a ts c'.rest

namespace Ensures

variable {file : Nat} {N : Names} {r : List Token} {x : ParserM α} {f : α → ParserM β}
  {P P' : α → List Token → List Token → Prop} {Q : β → List Token → List Token → Prop}

theorem mono (h : Ensures file N r x P) (himp : ∀ a ts r', r = ts ++ r' → P a ts r' → P' a ts r') :
    Ensures file N r x P' := by
  intro c s ts a c' s' hfile hrest hreads hN
  exact himp a ts c'.rest (hrest.symm.trans hreads.rest) (h c s ts a c' s' hfile hrest hreads hN)

theorem anything : Ensures file N r x fun _ _ _ => True :=
  fun _ _ _ _ _ _ _ _ _ _ => trivial

theorem and (h : Ensures file N r x P) (h' : Ensures file N r x P') :
    Ensures file N r x fun a ts r' => P a ts r' ∧ P' a ts r' :=
  fun c s ts a c' s' hfile hrest hreads hN =>
    ⟨h c s ts a c' s' hfile hrest hreads hN, h' c s ts a c' s' hfile hrest hreads hN⟩

theorem pure {a : α} (h : P a [] r) : Ensures file N r (Pure.pure a) P := by
  intro c s ts b c' s' _ hrest hreads _
  obtain ⟨rfl, rfl, rfl, rfl⟩ := hreads.of_pure
  rwa [hrest]

theorem bind (hx : Ensures file N r x P)
    (hf : ∀ a us r', r = us ++ r' → P a us r' →
      Ensures file N r' (f a) fun b vs r'' => Q b (us ++ vs) r'') :
    Ensures file N r (x >>= f) Q := by
  intro c s ts b c'' s'' hfile hrest hreads hN
  obtain ⟨a, c', s', us, vs, rfl, hreads₁, hreads₂⟩ := hreads.of_bind
  have ha := hx c s us a c' s' hfile hrest hreads₁ (hreads₂.names_extends.trans hN)
  exact hf a us c'.rest (hrest.symm.trans hreads₁.rest) ha c' s' vs b c'' s''
    (hreads₁.file.trans hfile) rfl hreads₂ hN

theorem map {g : α → β} (hx : Ensures file N r x fun a => Q (g a)) :
    Ensures file N r (g <$> x) Q := by
  intro c s ts b c' s' hfile hrest hreads hN
  obtain ⟨a, rfl, hreads₁⟩ := hreads.of_map
  exact hx c s ts a c' s' hfile hrest hreads₁ hN

theorem silent (hx : Silent x) (hf : ∀ a, Ensures file N r (f a) Q) :
    Ensures file N r (x >>= f) Q := by
  intro c s ts b c'' s'' hfile hrest hreads hN
  obtain ⟨a, c', hreads₁⟩ := hx c s
  obtain ⟨_, rfl, hreads₂⟩ := hreads.next hreads₁
  exact hf a c' s _ b c'' s'' (hreads₁.file.trans hfile) (hreads₁.rest.symm.trans hrest) hreads₂ hN

theorem look {f : Cursor → ParserM β}
    (hf : ∀ c, c.file = file → c.rest = r → Ensures file N r (f c) Q) :
    Ensures file N r (look >>= f) Q := by
  intro c s ts b c' s' hfile hrest hreads hN
  obtain ⟨_, rfl, hreads⟩ := hreads.next Reads.look
  exact hf c hfile hrest c s _ b c' s' hfile hrest hreads hN

theorem current {f : Kind → ParserM β} (hf : Ensures file N r (f (headKind r)) Q) :
    Ensures file N r (current >>= f) Q := by
  intro c s ts b c' s' hfile hrest hreads hN
  obtain ⟨_, rfl, hreads⟩ := hreads.next Reads.current
  rw [current_of_rest hrest] at hreads
  exact hf c s _ b c' s' hfile hrest hreads hN

theorem remaining {f : Nat → ParserM β} (hf : Ensures file N r (f r.length) Q) :
    Ensures file N r (remaining >>= f) Q := by
  intro c s ts b c' s' hfile hrest hreads hN
  obtain ⟨_, rfl, hreads⟩ := hreads.next Reads.remaining
  rw [hrest] at hreads
  exact hf c s _ b c' s' hfile hrest hreads hN

theorem report {e : SyntaxError} {f : Unit → ParserM β} :
    Ensures file N r (report e >>= f) Q := by
  intro c s ts b c' s' _ _ hreads _
  obtain ⟨_, _, _, _, _, -, hreads, -⟩ := hreads.of_bind
  obtain ⟨_, _, _, _, _, -, -, hreads⟩ := hreads.of_bind
  exact absurd hreads Reads.not_reportAt

theorem reportAt {e : SyntaxError} {span : Span} {f : Unit → ParserM β} :
    Ensures file N r (reportAt e span >>= f) Q := by
  intro c s ts b c' s' _ _ hreads _
  obtain ⟨_, _, _, _, _, -, hreads, -⟩ := hreads.of_bind
  exact absurd hreads Reads.not_reportAt

section Tokens

variable {kind : Kind}

theorem sees {f : Bool → ParserM β} (htrue : headKind r = kind → Ensures file N r (f true) Q)
    (hfalse : headKind r ≠ kind → Ensures file N r (f false) Q) :
    Ensures file N r (sees kind >>= f) Q := by
  intro c s ts b c' s' hfile hrest hreads hN
  obtain ⟨_, rfl, hreads⟩ := hreads.next (Reads.sees kind)
  rw [current_of_rest hrest] at hreads
  by_cases hkind : headKind r = kind
  · rw [decide_eq_true hkind] at hreads
    exact htrue hkind c s _ b c' s' hfile hrest hreads hN
  · rw [decide_eq_false hkind] at hreads
    exact hfalse hkind c s _ b c' s' hfile hrest hreads hN

theorem eat {f : Bool → ParserM β} (hsolid : kind.Solid)
    (htrue : ∀ t r', r = t :: r' → t.kind = kind →
      Ensures file N r' (f true) fun b vs r'' => Q b (t :: vs) r'')
    (hfalse : headKind r ≠ kind → Ensures file N r (f false) Q) :
    Ensures file N r (eat kind >>= f) Q := by
  intro c s ts b c' s' hfile hrest hreads hN
  by_cases hkind : headKind r = kind
  · obtain ⟨t, r', rfl⟩ : ∃ t r', r = t :: r' := by
      cases r with
      | nil => exact absurd hkind.symm hsolid.1
      | cons t r' => exact ⟨t, r', rfl⟩
    obtain ⟨c₁, hrest₁, hreads₁⟩ := Reads.eat (s := s) hrest hkind hsolid
    obtain ⟨vs, rfl, hreads₂⟩ := hreads.next hreads₁
    exact htrue t r' rfl hkind c₁ s vs b c' s' (hreads₁.file.trans hfile) hrest₁ hreads₂ hN
  · have hcurrent : c.current ≠ kind := by rwa [current_of_rest hrest]
    obtain ⟨_, rfl, hreads⟩ := hreads.next (Reads.eat_other hcurrent)
    exact hfalse hkind c s _ b c' s' hfile hrest hreads hN

theorem take {f : Unit → ParserM β} (hkind : headKind r = kind) (hsolid : kind.Solid)
    (hf : ∀ t r', r = t :: r' → t.kind = kind →
      Ensures file N r' (f ()) fun b vs r'' => Q b (t :: vs) r'') :
    Ensures file N r (take kind >>= f) Q := by
  have htake : Ensures file N r (Parser.take kind) fun _ us r' =>
      ∃ t, us = [t] ∧ r = t :: r' ∧ t.kind = kind :=
    eat hsolid (fun t r' hr ht => .pure ⟨t, rfl, hr, ht⟩) fun hne => absurd hkind hne
  refine htake.bind fun _ us r' _ ⟨t, hus, hr, ht⟩ => ?_
  subst hus
  exact hf t r' hr ht

/-- A broken lexeme is not consumed where all goes well. -/
theorem takeError {f : Unit → ParserM β} (hkind : headKind r = .error) :
    Ensures file N r (Parser.take .error >>= f) Q := by
  have htake : Ensures file N r (Parser.take .error) fun _ _ _ => False := by
    intro c s ts u c' s' hfile hrest hreads hN
    have hcurrent : c.current = .error := (current_of_rest hrest).trans hkind
    obtain ⟨t, r', rfl⟩ : ∃ t r', r = t :: r' := by
      cases r with
      | nil => cases hkind
      | cons t r' => exact ⟨t, r', rfl⟩
    have hadvance : c'.rest = r' := by
      have hrun := hreads.run
      rw [(take_run hcurrent s).1] at hrun
      cases hrun
      have herror : t.kind = .error := hkind
      exact rest_advance hrest (by rw [herror]; decide)
    have hts : ts = [t] :=
      List.append_cancel_right (hreads.rest.symm.trans (by rw [hrest, hadvance]; rfl))
    exact hreads.clean t (by rw [hts]; exact List.mem_singleton_self t) hkind
  exact htake.bind fun _ _ _ _ h => h.elim

theorem expect {f : Unit → ParserM β} (hsolid : kind.Solid)
    (hf : ∀ t r', r = t :: r' → t.kind = kind →
      Ensures file N r' (f ()) fun b vs r'' => Q b (t :: vs) r'') :
    Ensures file N r (expect kind >>= f) Q := by
  have hexpect : Ensures file N r (Parser.expect kind) fun _ us r' =>
      ∃ t, us = [t] ∧ r = t :: r' ∧ t.kind = kind := by
    refine eat hsolid (fun t r' hr ht => .pure ⟨t, rfl, hr, ht⟩) fun _ => ?_
    refine current ?_
    intro c s ts b c' s' _ _ hreads _
    obtain ⟨_, _, _, _, _, -, -, hreads⟩ := hreads.of_bind
    exact absurd hreads Reads.not_reportAt
  refine hexpect.bind fun _ us r' _ ⟨t, hus, hr, ht⟩ => ?_
  subst hus
  exact hf t r' hr ht

end Tokens

section Parts

variable {kind : Kind} {Q : Option α → List Token → List Token → Prop}

theorem nameAt {c : Cursor} (hrest : c.rest = r) (hsolid : (headKind r).Solid) :
    Ensures file N r (nameAt c) fun i ts r' =>
      ∃ t, ts = [t] ∧ r = t :: r' ∧ N.find? t.text = some i.name := by
  have hcurrent : c.current = headKind r := current_of_rest hrest
  have hintern : Ensures file N r (Parser.intern c.currentText) fun i us _ =>
      us = [] ∧ N.find? c.currentText = some i := by
    intro c' s' ts i c'' s'' _ _ hreads hN
    obtain ⟨hrun, -, hreads, -⟩ := hreads
    cases hrun
    exact ⟨List.self_eq_append_left.mp hreads, hN.find? (Names.find?_intern s'.names _)⟩
  refine hintern.bind fun i us r' hr ⟨hus, hi⟩ => ?_
  subst hus hr
  refine take hcurrent.symm (hcurrent ▸ hsolid) fun t r'' hr _ => ?_
  have htext : c.currentText = t.text := by rw [Cursor.currentText, hrest, hr]
  exact .pure ⟨t, rfl, hr, htext ▸ hi⟩

theorem nameOr {missing : Kind → SyntaxError} :
    Ensures file N r (nameOr missing) fun i ts r' =>
      ∃ t, ts = [t] ∧ r = t :: r' ∧ t.kind.isIdentifier = true ∧ N.find? t.text = some i.name := by
  refine look fun c _ hrest => ?_
  have hcurrent : c.current = headKind r := current_of_rest hrest
  by_cases hkind : c.current.isIdentifier = true
  · rw [if_pos hkind]
    rw [hcurrent] at hkind
    have hsolid : (headKind r).Solid := by
      constructor <;> intro hother <;> rw [hother] at hkind <;> cases hkind
    refine (nameAt hrest hsolid).mono fun i ts r' _ ⟨t, hts, hr, hi⟩ => ⟨t, hts, hr, ?_, hi⟩
    rwa [hr] at hkind
  · rw [if_neg hkind]
    exact report

theorem unlessAt (hnone : headKind r = kind → Q none [] r)
    (hsome : headKind r ≠ kind → Ensures file N r x fun a => Q (some a)) :
    Ensures file N r (unlessAt kind x) Q :=
  sees (fun hkind => .pure (hnone hkind)) fun hkind => map (hsome hkind)

theorem whenAt (hnone : headKind r ≠ kind → Q none [] r)
    (hsome : headKind r = kind → Ensures file N r x fun a => Q (some a)) :
    Ensures file N r (whenAt kind x) Q :=
  sees (fun hkind => map (hsome hkind)) fun hkind => .pure (hnone hkind)

theorem after (hsolid : kind.Solid) (hnone : headKind r ≠ kind → Q none [] r)
    (hsome : ∀ t r', r = t :: r' → t.kind = kind →
      Ensures file N r' x fun a ts => Q (some a) (t :: ts)) :
    Ensures file N r (after kind x) Q :=
  eat hsolid (fun t r' hr ht => map (hsome t r' hr ht)) fun hkind => .pure (hnone hkind)

end Parts

section Items

variable {R : α → List Token → Prop} {kind : Kind}

theorem moreItems
    (hitem : ∀ r', r'.length < r.length → Ensures file N r' x fun a ts _ => R a ts) :
    Ensures file N r (moreItems x) fun as ts _ => Following R as ts := by
  suffices hitems : ∀ bound r', r'.length ≤ r.length →
      Ensures file N r' (commaItems x bound) fun as ts _ => Following R as ts from
    remaining (hitems _ r le_rfl)
  intro bound
  induction bound with
  | zero => exact fun r' _ => .pure .nil
  | succ bound ih =>
    intro r' hr'
    refine eat (by decide) (fun comma r₁ hr₁ hcomma => ?_) fun _ => .pure .nil
    subst hr₁
    simp only [List.length_cons] at hr'
    refine (hitem r₁ (by omega)).bind fun a us r₂ hr₂ ha => ?_
    subst hr₂
    simp only [List.length_append] at hr'
    refine (ih r₂ (by omega)).bind fun as vs _ _ has => ?_
    have hall := Following.cons hcomma ha has
    exact .pure (by rwa [List.append_nil])

theorem itemsAt (hitem : ∀ r', r'.length ≤ r.length → headKind r' = kind →
      Ensures file N r' x fun a ts _ => R a ts) :
    Ensures file N r (itemsAt kind x) fun as ts _ => Strung R as ts := by
  suffices hitems : ∀ bound r', r'.length ≤ r.length →
      Ensures file N r' (itemsWhile kind x bound) fun as ts _ => Strung R as ts from
    remaining (hitems _ r le_rfl)
  intro bound
  induction bound with
  | zero => exact fun r' _ => .pure .nil
  | succ bound ih =>
    intro r' hr'
    refine sees (fun hkind => ?_) fun _ => .pure .nil
    refine (hitem r' hr' hkind).bind fun a us r₂ hr₂ ha => ?_
    subst hr₂
    simp only [List.length_append] at hr'
    refine (ih r₂ (by omega)).bind fun as vs _ _ has => ?_
    have hall := Strung.cons ha has
    exact .pure (by rwa [List.append_nil])

/-- Where an item begins there is one. -/
theorem itemsAt_ne_nil (hkind : headKind r = kind) (hne : kind ≠ .eof) :
    Ensures file N r (Parser.itemsAt kind x) fun as _ _ => as ≠ [] := by
  refine remaining ?_
  cases r with
  | nil => exact absurd hkind.symm hne
  | cons t r =>
    refine sees (fun _ => ?_) fun hother => absurd hkind hother
    refine anything.bind fun a us r₂ _ _ => anything.bind fun as vs _ _ _ => ?_
    exact .pure (List.cons_ne_nil a as)

/-- Where a comma stands there is an item behind it. -/
theorem moreItems_eq_nil :
    Ensures file N r (Parser.moreItems x) fun as _ _ => as = [] → headKind r ≠ .comma := by
  refine remaining ?_
  cases r with
  | nil => exact .pure fun _ => by decide
  | cons t r =>
    refine eat (by decide) (fun comma r₁ _ _ => ?_) fun hkind => .pure fun _ => hkind
    refine anything.bind fun a us r₂ _ _ => anything.bind fun as vs _ _ _ => ?_
    exact .pure fun hnil => absurd hnil (List.cons_ne_nil a as)

end Items

end Ensures

end Netlist.Parser
