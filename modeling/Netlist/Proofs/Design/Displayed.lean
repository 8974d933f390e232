import Netlist.Proofs.Lowering.Told

/-!
The texts of expressions, cut into tokens. Wherever the text of an expression stands before a
delimiter, it is cut into tokens that tell the expression: operators have blanks on both sides and
parentheses around them, and every other sign is followed by one that does not belong to it.
-/
namespace Netlist.Design

open Lexeme (Lexes)
open Lowering (Told ToldAll NameToken DottedTokens)
open Piece

variable {names : Names}

/-- The text of an expression, which tells the expression before a delimiter. -/
structure Displayed (names : Names) (e : Expr) (cs : List Char) : Prop where
  text : e.text names = .ok (String.ofList cs)
  start : cs.head?.any startsText = true
  lexes : ∀ (file : Nat) {rest : List Char}, Delimits rest → Lexes cs rest (Told names file e)

theorem text_binary {joint : Joint} {a b : Expr} {as bs : List Char}
    (ha : a.text names = .ok (String.ofList as)) (hb : b.text names = .ok (String.ofList bs)) :
    (Expr.binary joint a b).text names =
      .ok (String.ofList (joint.marks.1.toList ++ (as ++ (joint.marks.2.1.toList ++
        (bs ++ joint.marks.2.2.toList))))) := by
  simp only [Expr.text, ha, hb, bind, Except.bind, pure, Except.pure, Except.ok.injEq]
  rw [← String.toList_inj]
  simp

/-- What stands behind a sign begins a name, a literal or a bracket. -/
theorem apart_of_start {text : String} {cs rest : List Char} (hne : text.toList ≠ [])
    (h : cs.head?.any startsText = true) : Apart text (cs ++ rest) :=
  .of_ends hne (.of_start h fun _ => isInner_of_startsText)

theorem start_append {cs ds : List Char} (h : cs.head?.any startsText = true) :
    (cs ++ ds).head?.any startsText = true := by
  cases cs with
  | nil => cases h
  | cons c cs => exact h

section Names

variable {i : Nat} {text : String} {rest : List Char}

theorem start_of_nameText {cs : List Char} (h : NameText cs) : cs.head?.any startsText = true := by
  cases h with
  | mk hstart _ _ => simp [startsText, hstart]

theorem text_id (h : names.find? text = some i) :
    (Expr.id i).text names = .ok (String.ofList text.toList) := by
  rw [Expr.text, String.ofList_toList, Names.resolve_eq_ok (Names.resolve?_of_find? h)]

theorem lexes_name (htext : NameText text.toList) (hfind : names.find? text = some i)
    (hrest : Ends isNameChar rest) :
    Lexes text.toList rest fun ts => ∃ t, ts = [t] ∧ NameToken names i t := by
  have hlexes : Lexes text.toList rest fun ts =>
      ∃ t, ts = [t] ∧ t.kind = .identifier ∧ t.text = String.ofList text.toList := by
    generalize text.toList = cs at htext
    cases htext with
    | mk hstart hcs hword => exact .single (single_name hstart hcs hword hrest) rfl
  refine hlexes.mono ?_
  rintro _ ⟨t, rfl, hkind, ht⟩
  rw [String.ofList_toList] at ht
  exact ⟨t, rfl, .mk hkind (ht ▸ htext) (ht ▸ hfind)⟩

theorem exists_name (h : IsName names i) : ∃ cs, Displayed names (.id i) cs := by
  obtain ⟨htext, hfind⟩ := h
  refine ⟨_, text_id hfind, start_of_nameText htext, fun file _ hrest => ?_⟩
  refine (lexes_name htext hfind (hrest.ends (by decide))).mono ?_
  rintro _ ⟨t, rfl, ht⟩
  exact Lowering.told_name ht

/-- The text of names behind dots. -/
structure DottedText (names : Names) (more : List Nat) (cs : List Char) : Prop where
  text : ∀ {base : Expr} {b : List Char}, base.text names = .ok (String.ofList b) →
    (base.dotted more).text names = .ok (String.ofList (b ++ cs))
  ends : ∀ {rest : List Char}, Ends isNameChar rest → Ends isNameChar (cs ++ rest)
  lexes : ∀ {rest : List Char}, Ends isNameChar rest → Lexes cs rest (DottedTokens names more)

theorem exists_dottedText {more : List Nat} (h : ∀ i ∈ more, IsName names i) :
    ∃ cs, DottedText names more cs := by
  induction more with
  | nil =>
    refine ⟨[], fun hbase => ?_, fun hrest => hrest, fun _ => Lexes.nil.mono ?_⟩
    · rw [List.append_nil]
      exact hbase
    · rintro _ rfl
      exact .nil
  | cons i more ih =>
    obtain ⟨hi, hmore⟩ := List.forall_mem_cons.mp h
    obtain ⟨cs, hcs⟩ := ih hmore
    cases hi with
    | @mk text _ htext hfind =>
      refine ⟨'.' :: (text.toList ++ cs), fun {base b} hbase => ?_, fun _ => ?_, fun hrest => ?_⟩
      · have hmember : (Expr.binary .dot base (.id i)).text names =
            .ok (String.ofList (b ++ '.' :: (text.toList ++ []))) :=
          text_binary hbase (text_id hfind)
        have htail := hcs.text hmember
        rwa [List.append_nil, List.append_assoc] at htail
      · intro r hr
        cases hr
        decide
      · have hstart : (text.toList ++ cs).head?.any startsText = true :=
          start_append (start_of_nameText htext)
        refine (Lexes.sign '.' .dot (by decide) (by decide) (apart_of_start (by decide) hstart)
          ((lexes_name htext hfind (hcs.ends hrest)).append (hcs.lexes hrest))).mono ?_
        rintro _ ⟨dot, _, rfl, hkind, _, ts, rfl, ⟨t, rfl, ht⟩, hts⟩
        exact .cons hkind ht hts

theorem exists_dotted {more : List Nat} (hi : IsName names i) (hne : more ≠ [])
    (hmore : ∀ j ∈ more, IsName names j) : ∃ cs, Displayed names (.dotted (.id i) more) cs := by
  obtain ⟨cs, hcs⟩ := exists_dottedText hmore
  cases hi with
  | @mk text _ htext hfind =>
    refine ⟨text.toList ++ cs, hcs.text (text_id hfind), start_append (start_of_nameText htext),
      fun file _ hrest => ?_⟩
    have hend := hrest.ends (p := isNameChar) (by decide)
    refine ((lexes_name htext hfind (hcs.ends hend)).append (hcs.lexes hend)).mono ?_
    rintro _ ⟨_, ts, rfl, ⟨t, rfl, ht⟩, hts⟩
    exact Lowering.told_dotted ht hne hts

/-- The text of what is called, before an opening parenthesis. -/
structure CalleeText (names : Names) (e : Expr) (cs : List Char) : Prop where
  text : e.text names = .ok (String.ofList cs)
  start : cs.head?.any startsText = true
  lexes : ∀ (file : Nat) {rest : List Char}, Ends isNameChar rest →
    Lexes cs rest fun ts => ∀ {opening closing : Token} {es : List Expr} {us : List Token},
      opening.kind = .leftParen → ToldAll names file Listed es us → closing.kind = .rightParen →
      Told names file (.call e es) (ts ++ opening :: (us ++ [closing]))

/-- A name in a scope. -/
structure ScopeText (names : Names) (i j : Nat) (cs : List Char) : Prop where
  text : (Expr.binary .scope (.id i) (.id j)).text names = .ok (String.ofList cs)
  start : cs.head?.any startsText = true
  lexes : ∀ {rest : List Char}, Ends isNameChar rest → Lexes cs rest fun ts =>
    ∃ t colons u, ts = [t, colons, u] ∧ NameToken names i t ∧ colons.kind = .colonColon ∧
      NameToken names j u

theorem exists_scopeText {j : Nat} (hi : IsName names i) (hj : IsName names j) :
    ∃ cs, ScopeText names i j cs := by
  cases hi with
  | @mk first _ hfirst hfind =>
    cases hj with
    | @mk second _ hsecond hfind' =>
      have htext : (Expr.binary .scope (.id i) (.id j)).text names =
          .ok (String.ofList (first.toList ++ ("::".toList ++ (second.toList ++ [])))) :=
        text_binary (text_id hfind) (text_id hfind')
      rw [List.append_nil] at htext
      refine ⟨_, htext, start_append (start_of_nameText hfirst), fun {rest} hrest => ?_⟩
      have hcolons : Ends isNameChar ("::".toList ++ second.toList ++ rest) := fun r hr => by
        cases hr
        decide
      have hmem : ("::", Kind.colonColon) ∈ symbols := by decide
      refine ((lexes_name hfirst hfind hcolons).append (Lexes.symbol hmem (by decide)
        (apart_of_start (by decide) (start_of_nameText hsecond))
        (lexes_name hsecond hfind' hrest))).mono ?_
      rintro _ ⟨_, _, rfl, ⟨t, rfl, ht⟩, colons, _, rfl, hcolons, u, rfl, hu⟩
      exact ⟨t, colons, u, rfl, ht, hcolons, hu⟩

theorem exists_scope {j : Nat} (hi : IsName names i) (hj : IsName names j) :
    ∃ cs, Displayed names (.binary .scope (.id i) (.id j)) cs := by
  obtain ⟨cs, hcs⟩ := exists_scopeText hi hj
  refine ⟨cs, hcs.text, hcs.start, fun file _ hrest => (hcs.lexes (hrest.ends (by decide))).mono ?_⟩
  rintro _ ⟨t, colons, u, rfl, ht, hcolons, hu⟩
  exact Lowering.told_scope ht hcolons hu

theorem exists_calleeText {e : Expr} (h : e.IsCallee names) : ∃ cs, CalleeText names e cs := by
  cases h with
  | name hi =>
    cases hi with
    | @mk text i htext hfind =>
      refine ⟨_, text_id hfind, start_of_nameText htext, fun file _ hrest => ?_⟩
      refine (lexes_name htext hfind hrest).mono ?_
      rintro _ ⟨t, rfl, ht⟩ opening closing es us hopening hes hclosing
      exact (Lowering.tellsBy_name ht).call rfl hopening hes hclosing
  | inScope hi hj =>
    obtain ⟨cs, hcs⟩ := exists_scopeText hi hj
    refine ⟨cs, hcs.text, hcs.start, fun file _ hrest => (hcs.lexes hrest).mono ?_⟩
    rintro _ ⟨t, colons, u, rfl, ht, hcolons, hu⟩ opening closing es us hopening hes hclosing
    exact (Lowering.tellsBy_scope ht hcolons hu).call rfl hopening hes hclosing
  | system hi =>
    cases hi with
    | @mk text i htext hfind =>
      have hlexes {rest : List Char} (hrest : Ends isNameChar rest) : Lexes text.toList rest fun ts =>
          ∃ t, ts = [t] ∧ t.kind = .systemIdentifier ∧ t.text = String.ofList text.toList := by
        generalize text.toList = cs at htext
        cases htext with
        | mk hstart hcs => exact .single (single_systemName hstart hcs hrest) rfl
      refine ⟨_, text_id hfind, ?_, fun file _ hrest => (hlexes hrest).mono ?_⟩
      · generalize text.toList = cs at htext
        cases htext with
        | mk _ _ => rfl
      · rintro _ ⟨t, rfl, hkind, ht⟩ opening closing es us hopening hes hclosing
        rw [String.ofList_toList] at ht
        exact Lowering.told_systemCall hkind (ht ▸ hfind) hopening hes hclosing

end Names

section Lists

variable {es : List Expr}

/-- The texts of expressions, each behind a comma and a blank. -/
structure FollowingText (names : Names) (es : List Expr) (css : List (List Char)) : Prop where
  text : Expr.texts names es = .ok (css.map String.ofList)
  delimits : ∀ {rest : List Char}, Delimits rest →
    Delimits (css.flatMap (fun cs => ',' :: ' ' :: cs) ++ rest)
  lexes : ∀ (file : Nat) {rest : List Char}, Delimits rest →
    Lexes (css.flatMap fun cs => ',' :: ' ' :: cs) rest (ToldAll names file Following es)

theorem exists_followingText (h : ∀ e ∈ es, ∃ cs, Displayed names e cs) :
    ∃ css, FollowingText names es css := by
  induction es with
  | nil =>
    refine ⟨[], rfl, fun hrest => hrest, fun file _ _ => Lexes.nil.mono ?_⟩
    rintro _ rfl
    exact .nil
  | cons e es ih =>
    obtain ⟨⟨cs, hcs⟩, hes⟩ := List.forall_mem_cons.mp h
    obtain ⟨css, hcss⟩ := ih hes
    refine ⟨cs :: css, ?_, fun _ => .mark (by decide), fun file rest hrest => ?_⟩
    · simp only [Expr.texts, hcs.text, hcss.text, bind, Except.bind, pure, Except.pure,
        List.map_cons]
    · rw [List.flatMap_cons]
      have hblank : Ends isSpace (cs ++ css.flatMap (fun cs => ',' :: ' ' :: cs) ++ rest) :=
        .of_start (start_append hcs.start) fun _ => isSpace_of_startsText
      refine (Lexes.whole ',' .comma (by decide) (Lexes.blank hblank
        ((hcs.lexes file (hcss.delimits hrest)).append (hcss.lexes file hrest)))).mono ?_
      rintro _ ⟨comma, _, rfl, hcomma, ts, us, rfl, hts, hus⟩
      exact .cons hcomma hts hus

private theorem intercalate_cons (cs : List Char) (css : List (List Char)) :
    ", ".intercalate (String.ofList cs :: css.map String.ofList) =
      String.ofList (cs ++ css.flatMap fun cs => ',' :: ' ' :: cs) := by
  induction css generalizing cs with
  | nil => simp
  | cons ds css ih =>
    rw [List.map_cons, String.intercalate_cons_cons, ih, ← String.toList_inj]
    simp

/-- The texts of one or more expressions, with commas between them. -/
structure SeparatedText (names : Names) (es : List Expr) (cs : List Char) : Prop where
  text : ∃ list, Expr.texts names es = .ok list ∧ ", ".intercalate list = String.ofList cs
  start : cs.head?.any startsText = true
  lexes : ∀ (file : Nat) {rest : List Char}, Delimits rest →
    Lexes cs rest (ToldAll names file Separated es)

theorem exists_separatedText (hne : es ≠ []) (h : ∀ e ∈ es, ∃ cs, Displayed names e cs) :
    ∃ cs, SeparatedText names es cs := by
  cases es with
  | nil => exact absurd rfl hne
  | cons e es =>
    obtain ⟨⟨cs, hcs⟩, hes⟩ := List.forall_mem_cons.mp h
    obtain ⟨css, hcss⟩ := exists_followingText hes
    refine ⟨_, ⟨_, ?_, intercalate_cons cs css⟩, start_append hcs.start,
      fun file _ hrest => ?_⟩
    · simp only [Expr.texts, hcs.text, hcss.text, bind, Except.bind, pure, Except.pure]
    · refine ((hcs.lexes file (hcss.delimits hrest)).append (hcss.lexes file hrest)).mono ?_
      rintro _ ⟨ts, us, rfl, hts, hus⟩
      exact .separated hts hus

/-- The texts of arguments, which there may be none of. -/
structure ListedText (names : Names) (es : List Expr) (cs : List Char) : Prop where
  text : ∃ list, Expr.texts names es = .ok list ∧ ", ".intercalate list = String.ofList cs
  ends : ∀ {rest : List Char}, Ends (· = '*') (cs ++ ')' :: rest)
  lexes : ∀ (file : Nat) {rest : List Char}, Delimits rest →
    Lexes cs rest (ToldAll names file Listed es)

theorem exists_listedText (h : ∀ e ∈ es, ∃ cs, Displayed names e cs) :
    ∃ cs, ListedText names es cs := by
  by_cases hne : es = []
  · subst hne
    refine ⟨[], ⟨[], rfl, rfl⟩, fun r hr => ?_, fun file _ _ => Lexes.nil.mono ?_⟩
    · cases hr
      decide
    · rintro _ rfl
      exact .listed_nil
  · obtain ⟨cs, hcs⟩ := exists_separatedText hne h
    refine ⟨cs, hcs.text, .of_start hcs.start fun c hc => ?_, fun file _ hrest => ?_⟩
    · rw [decide_eq_false_iff_not]
      rintro rfl
      cases hc
    · exact (hcs.lexes file hrest).mono fun ts hts => hts.listed

end Lists

section Forms

variable {a b c : Expr} {as bs cs rest : List Char} {sign : String} {kind : Kind}
  {P : List Token → Prop}

/-- What is closed by a bracket. -/
theorem lexes_closed (c : Char) (kind : Kind) (hmem : (String.ofList [c], kind) ∈ Lexes.wholes)
    (h : Lexes cs (c :: rest) P) :
    Lexes (cs ++ [c]) rest fun ts => ∃ us t, ts = us ++ [t] ∧ P us ∧ t.kind = kind := by
  refine (h.append (Lexes.whole c kind hmem .nil)).mono ?_
  rintro _ ⟨us, _, rfl, hus, t, _, rfl, ht, rfl⟩
  exact ⟨us, t, rfl, hus, ht⟩

theorem lexes_paren (hcs : Ends (· = '*') (cs ++ rest)) (h : Lexes cs rest P) :
    Lexes ('(' :: cs) rest fun ts => ∃ t us, ts = t :: us ∧ t.kind = .leftParen ∧ P us :=
  .sign '(' .leftParen (by decide) (by decide) (.paren hcs) h

theorem ends_star (h : cs.head?.any startsText = true) : Ends (· = '*') (cs ++ rest) := by
  refine .of_start h fun c hc => decide_eq_false ?_
  rintro rfl
  cases hc

/-- A blank and a sign end what is before them. -/
theorem delimits_sign (hmem : (sign, kind) ∈ symbols) (htick : sign ≠ "'") :
    Delimits (' ' :: (sign.toList ++ cs) ++ rest) := by
  obtain ⟨c, ds, hsign, hc⟩ := exists_mark hmem htick
  rw [hsign]
  exact .blank (isGap_of_isMark hc) (ne_tick_of_isMark hc)

/-- A sign between blanks. -/
theorem lexes_spaced (hmem : (sign, kind) ∈ symbols) (htick : sign ≠ "'")
    (hstart : cs.head?.any startsText = true) (h : Lexes cs rest P) :
    Lexes (' ' :: (sign.toList ++ ' ' :: cs)) rest fun ts =>
      ∃ t us, ts = t :: us ∧ t.kind = kind ∧ P us := by
  obtain ⟨c, ds, hsign, hc⟩ := exists_mark hmem htick
  have hblank : Ends isSpace (sign.toList ++ ' ' :: cs ++ rest) := fun r hr => by
    rw [hsign] at hr
    cases hr
    exact isSpace_of_isMark hc
  have hapart : Apart sign (' ' :: cs ++ rest) :=
    .of_ends (by rw [hsign]; exact List.cons_ne_nil c ds) fun r hr => by
      cases hr
      decide
  exact .blank hblank (.symbol hmem htick hapart
    (.blank (.of_start hstart fun _ => isSpace_of_startsText) h))

theorem exists_literal {l : Literal} (h : l.Readable) : ∃ cs, Displayed names (.literal l) cs := by
  obtain ⟨kind, c, cs, hcs⟩ := h.exists_spelled
  refine ⟨c :: cs, congrArg Except.ok hcs.text, hcs.start, fun file rest hrest => ?_⟩
  refine (Lexes.single (hcs.single rest hrest) hcs.read.bracketsAfter_eq).mono ?_
  rintro _ ⟨t, rfl, hkind, htext⟩
  refine Lowering.told_literal ?_
  rw [hkind, htext, String.toList_ofList]
  exact hcs.read

theorem Displayed.index (ha : Displayed names a as) (hb : Displayed names b bs) :
    Displayed names (.index a b) (as ++ '[' :: (bs ++ [']'])) where
  text := text_binary ha.text hb.text
  start := start_append ha.start
  lexes file _ _ := by
    refine ((ha.lexes file (.mark (by decide))).append (.whole '[' .leftBracket (by decide)
      (lexes_closed ']' .rightBracket (by decide) (hb.lexes file (.mark (by decide)))))).mono ?_
    rintro _ ⟨ts, _, rfl, hts, opening, _, rfl, hopening, us, closing, rfl, hus, hclosing⟩
    exact hts.index hopening hus hclosing

/-- The signs between the two ends of a range. -/
def rangeSigns : List (String × Kind) :=
  [(":", .colon), ("+:", .plusColon), ("-:", .minusColon)]

/-- A select of a range. -/
theorem Displayed.select {joint : Joint} (ha : Displayed names a as) (hb : Displayed names b bs)
    (hc : Displayed names c cs) (hmarks : joint.marks = ("", sign, ""))
    (hmem : (sign, kind) ∈ rangeSigns)
    (htold : ∀ {file ts us vs opening mark closing}, Told names file a ts →
      opening.kind = .leftBracket → Told names file b us → mark.kind = kind →
      Told names file c vs → closing.kind = .rightBracket →
      Told names file (.index a (.binary joint b c))
        (ts ++ opening :: (us ++ mark :: (vs ++ [closing])))) :
    Displayed names (.index a (.binary joint b c))
      (as ++ '[' :: (bs ++ (sign.toList ++ (cs ++ [']'])))) where
  text := by
    have hrange : (Expr.binary joint b c).text names =
        .ok (String.ofList (bs ++ (sign.toList ++ cs))) := by
      rw [text_binary hb.text hc.text, hmarks]
      simp
    have htext : (Expr.index a (.binary joint b c)).text names =
        .ok (String.ofList (as ++ '[' :: (bs ++ (sign.toList ++ cs) ++ [']']))) :=
      text_binary ha.text hrange
    rwa [List.append_assoc, List.append_assoc] at htext
  start := start_append ha.start
  lexes file rest _ := by
    have hsigns : ∀ entry ∈ rangeSigns, entry ∈ symbols ∧ entry.1 ≠ "'" ∧
        entry.1.toList.head?.any (delimiters.contains ·) = true := by decide
    obtain ⟨hsymbol, htick, hhead⟩ := hsigns _ hmem
    obtain ⟨d, ds, hsign⟩ : ∃ d ds, sign.toList = d :: ds :=
      have ⟨d, ds, hsign, _⟩ := exists_mark hsymbol htick
      ⟨d, ds, hsign⟩
    have hdelimits : Delimits (sign.toList ++ (cs ++ [']']) ++ rest) := by
      dsimp only at hhead
      rw [hsign] at hhead ⊢
      exact .mark (List.contains_iff_mem.mp hhead)
    have hapart : Apart sign (cs ++ [']'] ++ rest) :=
      apart_of_start (by rw [hsign]; exact List.cons_ne_nil d ds) (start_append hc.start)
    refine ((ha.lexes file (.mark (by decide))).append (.whole '[' .leftBracket (by decide)
      ((hb.lexes file hdelimits).append (.symbol hsymbol htick hapart
        (lexes_closed ']' .rightBracket (by decide) (hc.lexes file (.mark (by decide)))))))).mono ?_
    rintro _ ⟨ts, _, rfl, hts, opening, _, rfl, hopening, us, _, rfl, hus, mark, _, rfl, hmark,
      vs, closing, rfl, hvs, hclosing⟩
    exact htold hts hopening hus hmark hvs hclosing

theorem UnaryOp.mem_symbols (op : UnaryOp) :
    (op.sign, op.kind) ∈ symbols ∧ op.sign ≠ "'" ∧
      op.sign.toList.head?.any (· ≠ '*') = true := by
  cases op <;> decide

theorem BinaryOp.mem_symbols (op : BinaryOp) :
    (op.sign, op.kind) ∈ symbols ∧ op.sign ≠ "'" := by
  cases op <;> decide

theorem Displayed.unary {op : UnaryOp} (ha : Displayed names a as) :
    Displayed names (.unary op a) ('(' :: (op.sign.toList ++ as ++ [')'])) where
  text := by
    simp only [Expr.text, ha.text, bind, Except.bind, pure, Except.pure, Except.ok.injEq]
    rw [← String.toList_inj]
    simp
  start := rfl
  lexes file rest _ := by
    obtain ⟨hmem, htick, hhead⟩ := UnaryOp.mem_symbols op
    obtain ⟨c, ds, hsign, -⟩ := exists_mark hmem htick
    have hstar : Ends (· = '*') (op.sign.toList ++ as ++ [')'] ++ rest) := fun r hr => by
      rw [hsign] at hr hhead
      cases hr
      simpa using hhead
    have hapart : Apart op.sign (as ++ ')' :: rest) :=
      apart_of_start (by rw [hsign]; exact List.cons_ne_nil c ds) ha.start
    refine (lexes_paren hstar (lexes_closed ')' .rightParen (by decide)
      (.symbol hmem htick hapart (ha.lexes file (.mark (by decide)))))).mono ?_
    rintro _ ⟨opening, _, rfl, hopening, _, closing, rfl, ⟨t, ts, rfl, ht, hts⟩, hclosing⟩
    exact hts.unary hopening ht hclosing

theorem Displayed.operator {op : BinaryOp} (ha : Displayed names a as)
    (hb : Displayed names b bs) :
    Displayed names (.binary (.operator op) a b)
      ('(' :: (as ++ ' ' :: (op.sign.toList ++ ' ' :: bs) ++ [')'])) where
  text := by
    rw [text_binary ha.text hb.text, Except.ok.injEq, ← String.toList_inj]
    simp [Joint.marks]
  start := rfl
  lexes file rest _ := by
    obtain ⟨hmem, htick⟩ := BinaryOp.mem_symbols op
    refine (lexes_paren (ends_star (start_append (start_append ha.start)))
      (lexes_closed ')' .rightParen (by decide)
        ((ha.lexes file (delimits_sign hmem htick)).append
          (lexes_spaced hmem htick hb.start (hb.lexes file (.mark (by decide))))))).mono ?_
    rintro _ ⟨opening, _, rfl, hopening, _, closing, rfl, ⟨ts, _, rfl, hts, t, us, rfl, ht, hus⟩,
      hclosing⟩
    exact hts.operator hopening ht hus hclosing

theorem Displayed.ternary (ha : Displayed names a as) (hb : Displayed names b bs)
    (hc : Displayed names c cs) :
    Displayed names (.ternary a b c)
      ('(' :: (as ++ ' ' :: ("?".toList ++ ' ' :: (bs ++ ' ' :: (":".toList ++ ' ' :: cs))) ++
        [')'])) where
  text := by
    simp only [Expr.text, ha.text, hb.text, hc.text, bind, Except.bind, pure, Except.pure,
      Except.ok.injEq]
    rw [← String.toList_inj]
    simp
  start := rfl
  lexes file rest _ := by
    have hquestion : ("?", Kind.question) ∈ symbols := by decide
    have hcolon : (":", Kind.colon) ∈ symbols := by decide
    refine (lexes_paren (ends_star (start_append (start_append ha.start)))
      (lexes_closed ')' .rightParen (by decide)
        ((ha.lexes file (delimits_sign hquestion (by decide))).append
          (lexes_spaced hquestion (by decide) (start_append hb.start)
            ((hb.lexes file (delimits_sign hcolon (by decide))).append
              (lexes_spaced hcolon (by decide) hc.start
                (hc.lexes file (.mark (by decide))))))))).mono ?_
    rintro _ ⟨opening, _, rfl, hopening, _, closing, rfl, ⟨ts, _, rfl, hts, question, _, rfl,
      hquestion, us, _, rfl, hus, colon, vs, rfl, hcolon, hvs⟩, hclosing⟩
    exact hts.ternary hopening hquestion hus hcolon hvs hclosing

variable {es : List Expr}

theorem CalleeText.call (ha : CalleeText names a as) (hes : ListedText names es cs) :
    Displayed names (.call a es) (as ++ '(' :: (cs ++ [')'])) where
  text := by
    obtain ⟨list, htexts, hlist⟩ := hes.text
    simp only [Expr.text, ha.text, htexts, hlist, bind, Except.bind, pure, Except.pure,
      Except.ok.injEq]
    rw [← String.toList_inj]
    simp
  start := start_append ha.start
  lexes file rest _ := by
    have hstar : Ends (· = '*') (cs ++ [')'] ++ rest) := by
      rw [List.append_assoc]
      exact hes.ends
    have hparen : Ends isNameChar ('(' :: (cs ++ [')']) ++ rest) := fun r hr => by
      cases hr
      decide
    refine ((ha.lexes file hparen).append (lexes_paren hstar
      (lexes_closed ')' .rightParen (by decide) (hes.lexes file (.mark (by decide)))))).mono ?_
    rintro _ ⟨ts, _, rfl, hts, opening, _, rfl, hopening, us, closing, rfl, hus, hclosing⟩
    exact hts hopening hus hclosing

theorem SeparatedText.concat (hes : SeparatedText names es cs) :
    Displayed names (.concat es) ('\x7b' :: (cs ++ ['\x7d'])) where
  text := by
    obtain ⟨list, htexts, hlist⟩ := hes.text
    simp only [Expr.text, htexts, hlist, bind, Except.bind, pure, Except.pure, Except.ok.injEq]
    rw [← String.toList_inj]
    simp
  start := rfl
  lexes file rest _ := by
    refine (Lexes.whole '\x7b' .leftBrace (by decide)
      (lexes_closed '\x7d' .rightBrace (by decide) (hes.lexes file (.mark (by decide))))).mono ?_
    rintro _ ⟨opening, _, rfl, hopening, us, closing, rfl, hus, hclosing⟩
    exact Lowering.told_concat hopening hus hclosing

theorem Displayed.replicate (ha : Displayed names a as) (hes : SeparatedText names es cs) :
    Displayed names (.replicate a es)
      ('\x7b' :: (as ++ '\x7b' :: (cs ++ ['\x7d', '\x7d']))) where
  text := by
    obtain ⟨list, htexts, hlist⟩ := hes.text
    simp only [Expr.text, ha.text, htexts, hlist, bind, Except.bind, pure, Except.pure,
      Except.ok.injEq]
    rw [← String.toList_inj]
    simp
  start := rfl
  lexes file rest _ := by
    refine (Lexes.whole '\x7b' .leftBrace (by decide) ((ha.lexes file (.mark (by decide))).append
      (.whole '\x7b' .leftBrace (by decide) ((hes.lexes file (.mark (by decide))).append
        (.whole '\x7d' .rightBrace (by decide)
          (.whole '\x7d' .rightBrace (by decide) .nil)))))).mono ?_
    rintro _ ⟨opening, _, rfl, hopening, ts, _, rfl, hts, inner, _, rfl, hinner, us, _, rfl, hus,
      closing, _, rfl, hclosing, outer, _, rfl, houter, rfl⟩
    exact hts.replicate hopening hinner hus hclosing houter

end Forms

/-- The text of what can be read tells it again. -/
theorem Expr.Readable.exists_displayed {e : Expr} (h : e.Readable names) :
    ∃ cs, Displayed names e cs := by
  induction h with
  | name hi => exact exists_name hi
  | dotted hi hne hmore => exact exists_dotted hi hne hmore
  | inScope hi hj => exact exists_scope hi hj
  | literal hl => exact exists_literal hl
  | index _ _ iha ihb =>
    obtain ⟨as, has⟩ := iha
    obtain ⟨bs, hbs⟩ := ihb
    exact ⟨_, has.index hbs⟩
  | range _ _ _ iha ihb ihc =>
    obtain ⟨as, has⟩ := iha
    obtain ⟨bs, hbs⟩ := ihb
    obtain ⟨cs, hcs⟩ := ihc
    exact ⟨_, has.select hbs hcs rfl (by decide) Told.range⟩
  | part _ _ _ iha ihb ihc =>
    obtain ⟨as, has⟩ := iha
    obtain ⟨bs, hbs⟩ := ihb
    obtain ⟨cs, hcs⟩ := ihc
    rename_i ascending _ _ _
    cases ascending with
    | true => exact ⟨_, has.select hbs hcs rfl (by decide) Told.part⟩
    | false => exact ⟨_, has.select hbs hcs rfl (by decide) Told.part⟩
  | unary _ iha =>
    obtain ⟨as, has⟩ := iha
    exact ⟨_, has.unary⟩
  | operator _ _ iha ihb =>
    obtain ⟨as, has⟩ := iha
    obtain ⟨bs, hbs⟩ := ihb
    exact ⟨_, has.operator hbs⟩
  | ternary _ _ _ iha ihb ihc =>
    obtain ⟨as, has⟩ := iha
    obtain ⟨bs, hbs⟩ := ihb
    obtain ⟨cs, hcs⟩ := ihc
    exact ⟨_, has.ternary hbs hcs⟩
  | call hcallee _ ih =>
    obtain ⟨as, has⟩ := exists_calleeText hcallee
    obtain ⟨cs, hcs⟩ := exists_listedText ih
    exact ⟨_, has.call hcs⟩
  | concat hne _ ih =>
    obtain ⟨cs, hcs⟩ := exists_separatedText hne ih
    exact ⟨_, hcs.concat⟩
  | replicate _ hne _ iha ih =>
    obtain ⟨as, has⟩ := iha
    obtain ⟨cs, hcs⟩ := exists_separatedText hne ih
    exact ⟨_, has.replicate hcs⟩

end Netlist.Design
