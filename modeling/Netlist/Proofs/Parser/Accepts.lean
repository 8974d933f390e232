import Netlist.Proofs.Parser.Reads

/-!
What parsers accept. A parser accepts a stretch of tokens before others if it reads just that
stretch wherever it meets it. One rule for each way to build a parser says when it does; the tokens
behind the stretch matter, since a parser goes on as long as it can.
-/
namespace Netlist.Parser

open Syntax

open List (Forall₂)

variable {α β : Type}

/-- With `ts` and then `rest` ahead in the file, `x` reads `ts`, and what it gives has the property
`Q` for the names entered by then, and for those entered later. -/
def Accepts (file : Nat) (x : ParserM α) (ts rest : List Token) (Q : Names → α → Prop) : Prop :=
  ∀ c s, c.file = file → c.rest = ts ++ rest →
    ∃ a c' s', Reads x c s ts a c' s' ∧ ∀ N, s'.names.Extends N → Q N a

namespace Accepts

variable {file : Nat} {x : ParserM α} {f : α → ParserM β} {ts us rest : List Token}
  {P : Names → α → Prop} {Q : Names → β → Prop}

theorem cast {ts' : List Token} (h : Accepts file x ts' rest P) (heq : ts = ts') :
    Accepts file x ts rest P := heq ▸ h

theorem mono {P' : Names → α → Prop} (h : Accepts file x ts rest P)
    (himp : ∀ N a, P N a → P' N a) : Accepts file x ts rest P' := by
  intro c s hfile hrest
  obtain ⟨a, c', s', hreads, ha⟩ := h c s hfile hrest
  exact ⟨a, c', s', hreads, fun N hN => himp N a (ha N hN)⟩

theorem pure {a : α} (h : ∀ N, P N a) : Accepts file (Pure.pure a) [] rest P :=
  fun c s _ _ => ⟨a, c, s, Reads.pure, fun N _ => h N⟩

theorem bind (hx : Accepts file x ts (us ++ rest) P)
    (hf : ∀ a M, P M a → Accepts file (f a) us rest fun N b => P N a → Q N b) :
    Accepts file (x >>= f) (ts ++ us) rest Q := by
  intro c s hfile hrest
  rw [List.append_assoc] at hrest
  obtain ⟨a, c', s', hreads, ha⟩ := hx c s hfile hrest
  have hrest' : c'.rest = us ++ rest := List.append_cancel_left (hreads.rest.symm.trans hrest)
  obtain ⟨b, c'', s'', hreads', hb⟩ :=
    hf a s'.names (ha _ (.refl _)) c' s' (hreads.file.trans hfile) hrest'
  refine ⟨b, c'', s'', hreads.bind hreads', fun N hN => ?_⟩
  exact hb N hN (ha N (hreads'.names_extends.trans hN))

/-- The same where nothing has to be known of the value to go on. -/
theorem step (hx : Accepts file x ts (us ++ rest) P)
    (hf : ∀ a, Accepts file (f a) us rest fun N b => P N a → Q N b) :
    Accepts file (x >>= f) (ts ++ us) rest Q :=
  hx.bind fun a _ _ => hf a

/-- The last part of a chain that reads something. -/
theorem bindLast (hx : Accepts file x ts rest P)
    (hf : ∀ a M, P M a → Accepts file (f a) [] rest fun N b => P N a → Q N b) :
    Accepts file (x >>= f) ts rest Q :=
  (bind hx hf).cast (List.append_nil ts).symm

theorem last (hx : Accepts file x ts rest P)
    (hf : ∀ a, Accepts file (f a) [] rest fun N b => P N a → Q N b) :
    Accepts file (x >>= f) ts rest Q :=
  hx.bindLast fun a _ _ => hf a

theorem map {g : α → β} (hx : Accepts file x ts rest fun N a => Q N (g a)) :
    Accepts file (g <$> x) ts rest Q :=
  hx.last fun _ => .pure fun _ h => h

theorem silent (hx : Silent x) (hf : ∀ a, Accepts file (f a) ts rest Q) :
    Accepts file (x >>= f) ts rest Q := by
  intro c s hfile hrest
  obtain ⟨a, c', hreads⟩ := hx c s
  obtain ⟨b, c'', s'', hreads', hb⟩ :=
    hf a c' s (hreads.file.trans hfile) (hreads.rest.symm.trans hrest)
  exact ⟨b, c'', s'', hreads.step hreads', hb⟩

section Tokens

variable {kind : Kind} {t : Token}

theorem look {f : Cursor → ParserM β}
    (hf : ∀ c, c.file = file → c.rest = ts ++ rest → Accepts file (f c) ts rest Q) :
    Accepts file (look >>= f) ts rest Q := by
  intro c s hfile hrest
  obtain ⟨b, c', s', hreads, hb⟩ := hf c hfile hrest c s hfile hrest
  exact ⟨b, c', s', Reads.look.step hreads, hb⟩

theorem current {f : Kind → ParserM β} (hf : Accepts file (f (headKind (ts ++ rest))) ts rest Q) :
    Accepts file (current >>= f) ts rest Q := by
  intro c s hfile hrest
  obtain ⟨b, c', s', hreads, hb⟩ := hf c s hfile hrest
  rw [← current_of_rest hrest] at hreads
  exact ⟨b, c', s', Reads.current.step hreads, hb⟩

theorem remaining {f : Nat → ParserM β} (hf : Accepts file (f (ts ++ rest).length) ts rest Q) :
    Accepts file (remaining >>= f) ts rest Q := by
  intro c s hfile hrest
  obtain ⟨b, c', s', hreads, hb⟩ := hf c s hfile hrest
  rw [← hrest] at hreads
  exact ⟨b, c', s', Reads.remaining.step hreads, hb⟩

theorem sees {f : Bool → ParserM β}
    (hf : Accepts file (f (decide (headKind (ts ++ rest) = kind))) ts rest Q) :
    Accepts file (sees kind >>= f) ts rest Q := by
  intro c s hfile hrest
  obtain ⟨b, c', s', hreads, hb⟩ := hf c s hfile hrest
  rw [← current_of_rest hrest] at hreads
  exact ⟨b, c', s', (Reads.sees kind).step hreads, hb⟩

theorem seesOther {f : Bool → ParserM β} (hkind : headKind (ts ++ rest) ≠ kind)
    (hf : Accepts file (f false) ts rest Q) : Accepts file (Parser.sees kind >>= f) ts rest Q :=
  sees (by rwa [decide_eq_false hkind])

theorem seesKind {f : Bool → ParserM β} (hkind : headKind (ts ++ rest) = kind)
    (hf : Accepts file (f true) ts rest Q) : Accepts file (Parser.sees kind >>= f) ts rest Q :=
  sees (by rwa [decide_eq_true hkind])

theorem eat {f : Bool → ParserM β} (hsolid : kind.Solid) (hkind : t.kind = kind)
    (hf : Accepts file (f true) ts rest Q) : Accepts file (eat kind >>= f) (t :: ts) rest Q := by
  intro c s hfile hrest
  obtain ⟨c', hrest', hreads⟩ := Reads.eat (s := s) hrest hkind hsolid
  obtain ⟨b, c'', s'', hreads', hb⟩ := hf c' s (hreads.file.trans hfile) hrest'
  exact ⟨b, c'', s'', hreads.bind hreads', hb⟩

theorem eatOther {f : Bool → ParserM β} (hkind : headKind (ts ++ rest) ≠ kind)
    (hf : Accepts file (f false) ts rest Q) : Accepts file (Parser.eat kind >>= f) ts rest Q := by
  intro c s hfile hrest
  obtain ⟨b, c', s', hreads, hb⟩ := hf c s hfile hrest
  have hcurrent : c.current ≠ kind := by rwa [current_of_rest hrest]
  exact ⟨b, c', s', (Reads.eat_other hcurrent).step hreads, hb⟩

theorem take {f : Unit → ParserM β} (hsolid : kind.Solid) (hkind : t.kind = kind)
    (hf : Accepts file (f ()) ts rest Q) : Accepts file (take kind >>= f) (t :: ts) rest Q := by
  have htake : Accepts file (Parser.take kind) [t] (ts ++ rest) fun _ _ => True :=
    eat hsolid hkind (.pure fun _ => trivial)
  exact htake.step fun _ => hf.mono fun _ _ hb _ => hb

theorem expect {f : Unit → ParserM β} (hsolid : kind.Solid) (hkind : t.kind = kind)
    (hf : Accepts file (f ()) ts rest Q) : Accepts file (expect kind >>= f) (t :: ts) rest Q := by
  have hexpect : Accepts file (Parser.expect kind) [t] (ts ++ rest) fun _ _ => True :=
    eat hsolid hkind (.pure fun _ => trivial)
  exact hexpect.step fun _ => hf.mono fun _ _ hb _ => hb

end Tokens

section Parts

variable {kind : Kind} {t : Token}

theorem nameAt {c : Cursor} (hrest : c.rest = t :: rest)
    (hsolid : t.kind.Solid) :
    Accepts file (nameAt c) [t] rest fun N i => N.find? t.text = some i.name := by
  have htext : c.currentText = t.text := by rw [Cursor.currentText, hrest]
  have hcurrent : c.current = t.kind := current_of_rest hrest
  have hintern : Accepts file (Parser.intern c.currentText) [] ([t] ++ rest) fun N i =>
      N.find? t.text = some i := by
    intro c' s' _ _
    refine ⟨_, _, _, Reads.intern _, fun N hN => hN.find? ?_⟩
    rw [htext]
    exact Names.find?_intern s'.names t.text
  show Accepts file (Parser.nameAt c) ([] ++ [t]) rest _
  refine hintern.step fun name => ?_
  exact take (hcurrent ▸ hsolid) hcurrent.symm (.pure fun _ h => h)

theorem nameOr {missing : Kind → SyntaxError} (hkind : t.kind.isIdentifier = true) :
    Accepts file (nameOr missing) [t] rest fun N i => N.find? t.text = some i.name := by
  refine look fun c _ hrest => ?_
  have hcurrent : c.current = t.kind := current_of_rest hrest
  rw [hcurrent, if_pos hkind]
  refine nameAt hrest ⟨?_, ?_⟩
  · rintro heof
    rw [heof] at hkind
    cases hkind
  · intro herror
    rw [herror] at hkind
    cases hkind

theorem unlessAt (hkind : headKind (ts ++ rest) ≠ kind)
    (hx : Accepts file x ts rest fun N a => P N a) :
    Accepts file (unlessAt kind x) ts rest fun N a => ∃ b, a = some b ∧ P N b :=
  seesOther hkind (map (hx.mono fun _ b hb => ⟨b, rfl, hb⟩))

theorem unlessAt_none (hkind : headKind rest = kind) :
    Accepts file (Parser.unlessAt kind x) [] rest fun _ a => a = none :=
  seesKind hkind (.pure fun _ => rfl)

theorem whenAt (hkind : headKind (ts ++ rest) = kind)
    (hx : Accepts file x ts rest fun N a => P N a) :
    Accepts file (whenAt kind x) ts rest fun N a => ∃ b, a = some b ∧ P N b :=
  seesKind hkind (map (hx.mono fun _ b hb => ⟨b, rfl, hb⟩))

theorem whenAt_none (hkind : headKind rest ≠ kind) :
    Accepts file (Parser.whenAt kind x) [] rest fun _ a => a = none :=
  seesOther hkind (.pure fun _ => rfl)

/-- What may be left out, unless a token says that it is. -/
theorem unlessAt_optionally {γ : Type} {R : γ → List Token → Prop} {S : Names → γ → α → Prop}
    {o : Option γ} (h : Optionally R o ts) (hrest : headKind rest = kind)
    (hhead : ∀ a, R a ts → headKind (ts ++ rest) ≠ kind)
    (hitem : ∀ a, R a ts → Accepts file x ts rest fun N b => S N a b) :
    Accepts file (Parser.unlessAt kind x) ts rest fun N o' => Option.Rel (S N) o o' := by
  cases h with
  | none => exact (unlessAt_none hrest).mono fun N o' ho' => ho' ▸ .none
  | some ha =>
    refine (unlessAt (hhead _ ha) (hitem _ ha)).mono fun N o' ho' => ?_
    obtain ⟨b, rfl, hb⟩ := ho'
    exact .some hb

theorem whenAt_optionally {γ : Type} {R : γ → List Token → Prop} {S : Names → γ → α → Prop}
    {o : Option γ} (h : Optionally R o ts) (hrest : headKind rest ≠ kind)
    (hhead : ∀ a, R a ts → headKind (ts ++ rest) = kind)
    (hitem : ∀ a, R a ts → Accepts file x ts rest fun N b => S N a b) :
    Accepts file (Parser.whenAt kind x) ts rest fun N o' => Option.Rel (S N) o o' := by
  cases h with
  | none => exact (whenAt_none hrest).mono fun N o' ho' => ho' ▸ .none
  | some ha =>
    refine (whenAt (hhead _ ha) (hitem _ ha)).mono fun N o' ho' => ?_
    obtain ⟨b, rfl, hb⟩ := ho'
    exact .some hb

end Parts

section Items

variable {γ : Type} {R : γ → List Token → Prop} {S : Names → γ → α → Prop} {kind : Kind}

theorem commaItems {as : List γ} (h : Following R as us) (hrest : headKind rest ≠ .comma)
    (hitem : ∀ a ∈ as, ∀ ts' rest', R a ts' → (ts' ++ rest').length < (us ++ rest).length →
      headKind rest' = .comma ∨ rest' = rest → Accepts file x ts' rest' fun N b => S N a b)
    {bound : Nat} (hbound : us.length ≤ bound) :
    Accepts file (commaItems x bound) us rest fun N bs => Forall₂ (S N) as bs := by
  induction h generalizing bound with
  | nil =>
    cases bound with
    | zero => exact .pure fun _ => .nil
    | succ bound => exact eatOther hrest (.pure fun _ => .nil)
  | @cons a as comma ts us hcomma ha has ih =>
    simp only [List.length_cons, List.length_append] at hbound hitem ih
    obtain ⟨bound, rfl⟩ : ∃ n, bound = n + 1 := ⟨bound - 1, by omega⟩
    have hnext : headKind (us ++ rest) = .comma ∨ us ++ rest = rest := by
      cases has with
      | nil => exact .inr rfl
      | cons hcomma _ _ => exact .inl hcomma
    have hfirst := hitem a List.mem_cons_self ts (us ++ rest) ha
      (by simp only [List.length_append]; omega) hnext
    refine eat (by decide) hcomma (hfirst.step fun b => ?_)
    refine last (ih (fun a' ha' ts' rest' hts' hlength => ?_) (by omega)) fun bs => ?_
    · exact hitem a' (List.mem_cons_of_mem a ha') ts' rest' hts' (by omega)
    · exact .pure fun _ hbs hb => .cons hb hbs

theorem moreItems {as : List γ} (h : Following R as us) (hrest : headKind rest ≠ .comma)
    (hitem : ∀ a ∈ as, ∀ ts' rest', R a ts' → (ts' ++ rest').length < (us ++ rest).length →
      headKind rest' = .comma ∨ rest' = rest → Accepts file x ts' rest' fun N b => S N a b) :
    Accepts file (moreItems x) us rest fun N bs => Forall₂ (S N) as bs :=
  remaining (commaItems h hrest hitem (by simp))

theorem itemsAt {as : List γ} (h : Strung R as us) (hkind : kind ≠ .eof)
    (hrest : headKind rest ≠ kind)
    (hhead : ∀ a ts' rest', R a ts' → headKind (ts' ++ rest') = kind)
    (hitem : ∀ a ∈ as, ∀ ts' rest', R a ts' → (ts' ++ rest').length ≤ (us ++ rest).length →
      headKind rest' = kind ∨ rest' = rest → Accepts file x ts' rest' fun N b => S N a b) :
    Accepts file (itemsAt kind x) us rest fun N bs => Forall₂ (S N) as bs := by
  suffices hwhile : ∀ {bound : Nat}, us.length ≤ bound →
      Accepts file (itemsWhile kind x bound) us rest fun N bs => Forall₂ (S N) as bs from
    remaining (hwhile (by simp))
  induction h with
  | nil =>
    intro bound _
    cases bound with
    | zero => exact .pure fun _ => .nil
    | succ bound => exact seesOther hrest (.pure fun _ => .nil)
  | @cons a as ts us ha has ih =>
    intro bound hbound
    have hpos : 0 < ts.length := by
      refine List.length_pos_iff.mpr fun hnil => hkind ?_
      have hend := hhead a ts [] ha
      rw [hnil] at hend
      exact hend.symm
    simp only [List.length_append] at hbound hitem ih
    obtain ⟨bound, rfl⟩ : ∃ n, bound = n + 1 := ⟨bound - 1, by omega⟩
    have hnext : headKind (us ++ rest) = kind ∨ us ++ rest = rest := by
      cases has with
      | nil => exact .inr rfl
      | cons ha _ => exact .inl (by rw [List.append_assoc]; exact hhead _ _ _ ha)
    have hfirst := hitem a List.mem_cons_self ts (us ++ rest) ha
      (by simp only [List.length_append]; omega) hnext
    refine seesKind (by rw [List.append_assoc]; exact hhead a ts _ ha) (hfirst.step fun b => ?_)
    refine last (ih (fun a' ha' ts' rest' hts' hlength => ?_) (by omega)) fun bs => ?_
    · exact hitem a' (List.mem_cons_of_mem a ha') ts' rest' hts' (by omega)
    · exact .pure fun _ hbs hb => .cons hb hbs

end Items

end Accepts

end Netlist.Parser
