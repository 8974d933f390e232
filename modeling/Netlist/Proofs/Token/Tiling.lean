import Netlist.Proofs.Token.Joining
import Netlist.Proofs.Token.Stretches
import Mathlib.Data.List.Infix

/-!
The tokens of a text tile it. Each one covers a slice of the text, they stand one behind the other,
and what is left between two of them, before the first and behind the last, are blanks, comments and
directives only. Such a text has no token in it but its end.
-/
namespace Netlist

/-- What closes a block comment. -/
def commentEnd : List Char := ['*', '/']

/-- What can stand between tokens: blanks, comments and directives. A line comment or a directive
runs up to a line break or to the end, a block comment up to the first closing or to the end. -/
inductive Between : List Char → Prop
  | nil : Between []
  | space {c : Char} {cs : List Char} :
      Piece.isSpace c = true → Between cs → Between (c :: cs)
  | line {body cs : List Char} :
      '\n' ∉ body → Piece.Ends (· ≠ '\n') cs → Between cs → Between ('/' :: '/' :: (body ++ cs))
  | directive {body cs : List Char} :
      '\n' ∉ body → Piece.Ends (· ≠ '\n') cs → Between cs → Between ('\x60' :: (body ++ cs))
  | block {body cs : List Char} : ¬ commentEnd <:+: body ++ ['*'] → Between cs →
      Between ('/' :: '*' :: (body ++ '*' :: '/' :: cs))
  | openBlock {body : List Char} : ¬ commentEnd <:+: body → Between ('/' :: '*' :: body)

namespace Piece

section Comments

private theorem commentEnd_infix_cons (c : Char) (cs : List Char) :
    commentEnd <:+: c :: cs ↔ (c = '*' ∧ cs.head? = some '/') ∨ commentEnd <:+: cs := by
  rw [List.infix_cons_iff, commentEnd, List.cons_prefix_cons, @eq_comm _ '*']
  cases cs with
  | nil => simp
  | cons d ds => rw [List.cons_prefix_cons, List.head?_cons, Option.some_inj, @eq_comm _ '/']; simp

theorem commentTail_open {body : List Char} (h : ¬ commentEnd <:+: body) :
    commentTail body = (body.length, false) := by
  induction body with
  | nil => rfl
  | cons c cs ih =>
    rw [commentEnd_infix_cons, not_or] at h
    have hclose : (c = '*' && cs.head? = some '/') = false := by simpa using h.1
    rw [commentTail, hclose, ih h.2]
    rfl

theorem commentTail_closed {body : List Char} (h : ¬ commentEnd <:+: body ++ ['*'])
    (rest : List Char) : commentTail (body ++ '*' :: '/' :: rest) = (body.length + 2, true) := by
  induction body with
  | nil => rfl
  | cons c cs ih =>
    rw [List.cons_append, commentEnd_infix_cons, not_or] at h
    have hclose : (c = '*' && (cs ++ '*' :: '/' :: rest).head? = some '/') = false := by
      have hfirst := h.1
      cases cs with
      | nil => simp
      | cons d ds => simpa using hfirst
    rw [List.cons_append, commentTail, hclose, ih h.2]
    rfl

/-- A comment runs up to the first closing bracket, or to the end if there is none. -/
theorem commentTail_cases (cs : List Char) :
    (∃ body rest, cs = body ++ '*' :: '/' :: rest ∧ ¬ commentEnd <:+: body ++ ['*'] ∧
      (commentTail cs).1 = body.length + 2) ∨
    (¬ commentEnd <:+: cs ∧ (commentTail cs).1 = cs.length) := by
  induction cs with
  | nil => exact .inr ⟨by simp [commentEnd], rfl⟩
  | cons c cs ih =>
    by_cases hclose : c = '*' ∧ cs.head? = some '/'
    · obtain ⟨rfl, hslash⟩ := hclose
      obtain ⟨rest, rfl⟩ := List.head?_eq_some_iff.mp hslash
      exact .inl ⟨[], rest, rfl, by simp [commentEnd, List.infix_cons_iff], rfl⟩
    · have hopen : (c = '*' && cs.head? = some '/') = false := by simpa using hclose
      rw [commentTail, hopen]
      rcases ih with ⟨body, rest, rfl, hbody, hwidth⟩ | ⟨hnone, hwidth⟩
      · refine .inl ⟨c :: body, rest, rfl, ?_, congrArg (· + 1) hwidth⟩
        rw [List.cons_append, commentEnd_infix_cons, not_or]
        refine ⟨?_, hbody⟩
        cases body with
        | nil => simp
        | cons d ds => simpa using hclose
      · exact .inr ⟨by rw [commentEnd_infix_cons, not_or]; exact ⟨hclose, hnone⟩,
          congrArg (· + 1) hwidth⟩

end Comments

/-- The pieces that are no tokens, and how far each of them goes. -/
inductive Idle (c : Char) (cs : List Char) : Piece → Prop
  | space : isSpace c = true →
      Idle c cs { kind := none, width := ((c :: cs).takeWhile isSpace).length }
  | line {rest : List Char} : c = '/' → cs = '/' :: rest →
      Idle c cs { kind := none, width := ((c :: cs).takeWhile (· ≠ '\n')).length }
  | block {rest : List Char} : c = '/' → cs = '*' :: rest → Idle c cs {
      kind := none
      width := 2 + (commentTail rest).1
      problems := if (commentTail rest).2 then [] else [.openComment] }
  | directive : c = '\x60' → Idle c cs {
      kind := none
      width := ((c :: cs).takeWhile (· ≠ '\n')).length
      problems := [.directive] }

theorem idle_ofCons {openBrackets : Nat} {c : Char} {cs : List Char}
    (h : (ofCons openBrackets c cs).kind = none) : Idle c cs (ofCons openBrackets c cs) := by
  unfold ofCons at h ⊢
  by_cases hspace : isSpace c
  · rw [if_pos hspace]
    exact .space hspace
  rw [if_neg hspace] at h ⊢
  by_cases hline : (c = '/' && cs.head? = some '/') = true
  · rw [if_pos hline]
    rw [Bool.and_eq_true, decide_eq_true_eq, decide_eq_true_eq] at hline
    obtain ⟨rest, hrest⟩ := List.head?_eq_some_iff.mp hline.2
    exact .line hline.1 hrest
  rw [if_neg hline] at h ⊢
  by_cases hblock : (c = '/' && cs.head? = some '*') = true
  · rw [if_pos hblock]
    rw [Bool.and_eq_true, decide_eq_true_eq, decide_eq_true_eq] at hblock
    obtain ⟨rest, rfl⟩ := List.head?_eq_some_iff.mp hblock.2
    exact .block hblock.1 rfl
  rw [if_neg hblock] at h ⊢
  by_cases hdirective : c = '\x60'
  · rw [if_pos hdirective]
    exact .directive hdirective
  rw [if_neg hdirective] at h
  -- Everything else is a token.
  obtain ⟨kind, hnumber⟩ : ∃ kind, (number (c :: cs)).kind = some kind := by
    rw [number]
    dsimp only
    split <;> exact ⟨_, rfl⟩
  dsimp only at h
  repeat' split at h
  all_goals first | cases h | cases hnumber.symm.trans h

end Piece

namespace Lexeme

section Idle

variable {c : Char} {cs rest : List Char}

/-- A text without any tokens in it, however many attributes are open. -/
def IsIdle (cs : List Char) : Prop := ∀ openBrackets, ∀ l ∈ scan 0 0 openBrackets cs, l.kind = none

theorem IsIdle.anywhere (h : IsIdle cs) (offset openBrackets : Nat) :
    ∀ l ∈ scan 0 offset openBrackets cs, l.kind = none := by
  have hshift := scan_shift offset 0 0 openBrackets cs
  rw [Nat.zero_add] at hshift
  rw [hshift, List.forall_mem_map]
  exact h openBrackets

/-- A text that begins with a piece that is no token. -/
private theorem isIdle_cons (width : Nat)
    (hpiece : ∀ openBrackets, (Piece.ofCons openBrackets c cs).kind = none ∧
      (Piece.ofCons openBrackets c cs).width = width)
    (hrest : IsIdle ((c :: cs).drop width)) : IsIdle (c :: cs) := by
  intro openBrackets
  obtain ⟨hkind, hwidth⟩ := hpiece openBrackets
  rw [scan_step, hwidth]
  exact List.forall_mem_cons.mpr ⟨hkind, hrest.anywhere _ _⟩

private theorem ofCons_space (hspace : Piece.isSpace c = true) (cs : List Char)
    (openBrackets : Nat) : Piece.ofCons openBrackets c cs =
      { kind := none, width := ((c :: cs).takeWhile Piece.isSpace).length } := if_pos hspace

private theorem drop_takeWhile (p : Char → Bool) (cs : List Char) :
    cs.drop (cs.takeWhile p).length = cs.dropWhile p := by
  conv => lhs; arg 2; rw [← List.takeWhile_append_dropWhile (p := p) (l := cs)]
  exact List.drop_left

private theorem isIdle_dropWhile (h : IsIdle cs) : IsIdle (cs.dropWhile Piece.isSpace) := by
  cases cs with
  | nil => exact h
  | cons c cs =>
    by_cases hspace : Piece.isSpace c = true
    · intro openBrackets l hl
      have hbehind := h openBrackets
      rw [scan_step, ofCons_space hspace, drop_takeWhile, List.forall_mem_cons, scan_shift,
        List.forall_mem_map] at hbehind
      exact hbehind.2 l hl
    · rwa [List.dropWhile_cons_of_neg hspace]

/-- Up to the next line break. -/
private theorem drop_line (body : List Char) (hbody : '\n' ∉ body)
    (hrest : Piece.Ends (· ≠ '\n') rest) :
    (body ++ rest).drop ((body ++ rest).takeWhile (· ≠ '\n')).length = rest := by
  have hkept : ∀ d ∈ body, decide (d ≠ '\n') = true := by
    intro d hd
    exact decide_eq_true fun heq => hbody (heq ▸ hd)
  rw [hrest.takeWhile_append hkept, List.drop_left]

/-- What can stand between tokens has no token in it. -/
theorem isIdle_of_between (h : Between cs) : IsIdle cs := by
  induction h with
  | nil => exact fun _ => nofun
  | @space c cs hspace _ ih =>
    refine isIdle_cons ((c :: cs).takeWhile Piece.isSpace).length
      (fun b => ⟨congrArg Piece.kind (ofCons_space hspace cs b),
        congrArg Piece.width (ofCons_space hspace cs b)⟩) ?_
    rw [drop_takeWhile, List.dropWhile_cons_of_pos hspace]
    exact isIdle_dropWhile ih
  | @line body cs hbody hends _ ih =>
    refine isIdle_cons (('/' :: '/' :: body ++ cs).takeWhile (· ≠ '\n')).length
      (fun _ => ⟨rfl, rfl⟩) ?_
    have hdrop := drop_line ('/' :: '/' :: body) (by simpa using hbody) hends
    exact hdrop.symm ▸ ih
  | @directive body cs hbody hends _ ih =>
    refine isIdle_cons (('\x60' :: body ++ cs).takeWhile (· ≠ '\n')).length
      (fun _ => ⟨rfl, rfl⟩) ?_
    have hdrop := drop_line ('\x60' :: body) (by simpa using hbody) hends
    exact hdrop.symm ▸ ih
  | @block body cs hbody _ ih =>
    have htail := Piece.commentTail_closed hbody cs
    have hwidth (b : Nat) :
        (Piece.ofCons b '/' ('*' :: (body ++ '*' :: '/' :: cs))).width = body.length + 2 + 2 := by
      show 2 + (Piece.commentTail (body ++ '*' :: '/' :: cs)).1 = _
      rw [htail, Nat.add_comm]
    refine isIdle_cons (body.length + 2 + 2) (fun b => ⟨rfl, hwidth b⟩) ?_
    rw [List.drop_succ_cons, List.drop_succ_cons, ← List.drop_drop, List.drop_left]
    exact ih
  | @openBlock body hbody =>
    have hwidth (b : Nat) : (Piece.ofCons b '/' ('*' :: body)).width = body.length + 2 := by
      show 2 + (Piece.commentTail body).1 = _
      rw [Piece.commentTail_open hbody, Nat.add_comm]
    refine isIdle_cons (body.length + 2) (fun b => ⟨rfl, hwidth b⟩) ?_
    rw [List.drop_succ_cons, List.drop_succ_cons, List.drop_length]
    exact fun _ => nofun

end Idle

section Gaps

variable {c : Char} {cs g : List Char}

private theorem between_spaces {spaces : List Char} (h : ∀ d ∈ spaces, Piece.isSpace d = true)
    (hg : Between g) : Between (spaces ++ g) := by
  induction spaces with
  | nil => exact hg
  | cons d ds ih =>
    obtain ⟨hd, hds⟩ := List.forall_mem_cons.mp h
    exact .space hd (ih hds)

/-- A line is followed by nothing or by its line break. -/
private theorem ends_line (cs : List Char) {r : List Char} (h : cs.dropWhile (· ≠ '\n') = g ++ r) :
    Piece.Ends (· ≠ '\n') g := by
  cases g with
  | nil => nofun
  | cons d ds =>
    have hhead := List.head?_dropWhile_not (· ≠ '\n') cs
    rw [h] at hhead
    rintro _ ⟨⟩
    simpa using hhead

private theorem not_mem_line (cs : List Char) : '\n' ∉ cs.takeWhile (· ≠ '\n') := by
  intro hmem
  simpa using List.mem_takeWhile_imp hmem

/-- A piece that is no token, with what else is between tokens behind it. -/
theorem between_idle {p : Piece} (hidle : Piece.Idle c cs p) {r : List Char} (hg : Between g)
    (hrest : (c :: cs).drop p.width = g ++ r) : Between ((c :: cs).take p.width ++ g) := by
  cases hidle with
  | space hspace =>
    rw [Piece.take_takeWhile]
    exact between_spaces (fun d hd => List.mem_takeWhile_imp hd) hg
  | @line rest hc hcs =>
    subst hc hcs
    rw [drop_takeWhile] at hrest
    rw [Piece.take_takeWhile]
    exact .line (not_mem_line rest) (ends_line rest hrest) hg
  | directive hc =>
    subst hc
    rw [drop_takeWhile] at hrest
    rw [Piece.take_takeWhile]
    exact .directive (not_mem_line cs) (ends_line cs hrest) hg
  | @block rest hc hcs =>
    subst hc hcs
    dsimp only at hrest ⊢
    rw [Nat.add_comm] at hrest ⊢
    rw [List.drop_succ_cons, List.drop_succ_cons] at hrest
    rw [List.take_succ_cons, List.take_succ_cons]
    rcases Piece.commentTail_cases rest with ⟨body, after, rfl, hbody, hwidth⟩ | ⟨hbody, hwidth⟩
    · have htake : (body ++ '*' :: '/' :: after).take (body.length + 2) = body ++ ['*', '/'] := by
        rw [List.take_length_add_append]
        rfl
      rw [hwidth, htake]
      have hblock := Between.block hbody hg
      simpa using hblock
    · rw [hwidth, List.drop_length] at hrest
      rw [hwidth, List.take_length, (List.append_eq_nil_iff.mp hrest.symm).1, List.append_nil]
      exact .openBlock hbody

/-- A text begins with what is between tokens, and then with a token if it does not end there. -/
theorem exists_gap (offset openBrackets : Nat) (cs : List Char) :
    ∃ g r, cs = g ++ r ∧ Between g ∧
      (scan 0 offset openBrackets cs).filterMap Token.ofLexeme? =
        (scan 0 (offset + Text.byteLength g) openBrackets r).filterMap Token.ofLexeme? ∧
      (r = [] ∨ ∃ c rest kind, r = c :: rest ∧
        (Piece.ofCons openBrackets c rest).kind = some kind) := by
  induction hlength : cs.length using Nat.strong_induction_on generalizing cs offset
  next n ih =>
  subst hlength
  cases cs with
  | nil => exact ⟨[], [], rfl, .nil, rfl, .inl rfl⟩
  | cons c cs =>
    cases hkind : (Piece.ofCons openBrackets c cs).kind with
    | some kind => exact ⟨[], c :: cs, rfl, .nil, rfl, .inr ⟨c, cs, kind, rfl, hkind⟩⟩
    | none =>
      have hidle := Piece.idle_ofCons hkind
      have hpos := Piece.width_pos openBrackets c cs
      have hshorter : ((c :: cs).drop (Piece.ofCons openBrackets c cs).width).length <
          (c :: cs).length := by
        rw [List.length_drop, List.length_cons]
        omega
      obtain ⟨g, r, hrest, hg, htokens, hr⟩ := ih _ hshorter
        (offset + Text.byteLength (first offset openBrackets c cs).text) _ rfl
      refine ⟨(c :: cs).take (Piece.ofCons openBrackets c cs).width ++ g, r, ?_,
        between_idle hidle hg hrest, ?_, hr⟩
      · rw [List.append_assoc, ← hrest, List.take_append_drop]
      · rw [scan_step, hkind, List.filterMap_cons, Token.ofLexeme?, first, hkind]
        rw [first] at htokens
        rw [Text.byteLength_append, ← Nat.add_assoc]
        exact htokens

end Gaps

end Lexeme

/-- The byte ranges that some tokens leave free: before the first of them and between each two. -/
def freeRanges (offset : Nat) (ts : List Token) : List (Nat × Nat) :=
  (offset :: ts.map Token.stop).zip (ts.map Token.start)

/-- In a text from `before` on, what the tokens leave free stands between tokens. -/
private theorem between_freeRanges (before cs : List Char) (openBrackets : Nat) :
    ∀ p ∈ freeRanges (Text.byteLength before)
        ((Lexeme.scan 0 (Text.byteLength before) openBrackets cs).filterMap Token.ofLexeme? ++
          [Token.endAt (Text.byteLength (before ++ cs))]),
      ∃ g, Text.slice? p.1 p.2 (before ++ cs) = some g ∧ Between g := by
  induction hlength : cs.length using Nat.strong_induction_on generalizing cs before openBrackets
  next n ih =>
  subst hlength
  obtain ⟨g, r, rfl, hg, htokens, hr⟩ :=
    Lexeme.exists_gap (Text.byteLength before) openBrackets cs
  rw [htokens]
  rcases hr with rfl | ⟨c, rest, kind, rfl, hkind⟩
  · intro p hp
    obtain rfl := List.mem_singleton.mp hp
    refine ⟨g, ?_, hg⟩
    show Text.slice? _ (Text.byteLength (before ++ (g ++ []))) _ = _
    rw [List.append_nil, Text.byteLength_append]
    have hslice := Text.slice?_append before g []
    rwa [List.append_nil] at hslice
  · have hpos := Piece.width_pos openBrackets c rest
    have htext : before ++ (g ++ c :: rest) =
        before ++ g ++ (c :: rest).take (Piece.ofCons openBrackets c rest).width ++
          (c :: rest).drop (Piece.ofCons openBrackets c rest).width := by
      rw [List.append_assoc, List.append_assoc, List.take_append_drop]
    have hlater := ih ((c :: rest).drop (Piece.ofCons openBrackets c rest).width).length
      (by rw [List.length_drop, List.length_append, List.length_cons]; omega)
      (before ++ g ++ (c :: rest).take (Piece.ofCons openBrackets c rest).width)
      ((c :: rest).drop (Piece.ofCons openBrackets c rest).width)
      (Lexeme.bracketsAfter openBrackets (Piece.ofCons openBrackets c rest).kind) rfl
    rw [← htext] at hlater
    simp only [Text.byteLength_append] at hlater
    rw [Lexeme.scan_step, List.filterMap_cons, Token.ofLexeme?, Lexeme.first, hkind]
    intro p hp
    rcases List.mem_cons.mp hp with rfl | hp
    · exact ⟨g, Text.slice?_append before g (c :: rest), hg⟩
    · apply hlater p
      rw [Text.byteLength_append, Text.byteLength_append] at hp
      rw [hkind]
      exact hp

/-- Tokens that tile a text: each covers its slice of it, none but the last is empty or the end, and
what they leave free has no token in it. -/
structure Tiles (content : String) (ts : List Token) : Prop where
  last : ts.getLast? = some (Token.endAt (Text.byteLength content.toList))
  inner : ∀ t ∈ ts.dropLast, t.kind ≠ .eof ∧ t.start < t.stop
  ordered : ts.Pairwise fun t u => t.start < u.start ∧ t.stop ≤ u.start
  slice : ∀ t ∈ ts, Text.slice? t.start t.stop content.toList = some t.text.toList
  free : ∀ p ∈ freeRanges 0 ts, ∃ g, Text.slice? p.1 p.2 content.toList = some g ∧ Between g ∧
    (lex 0 (String.ofList g)).1 = [Token.endAt (Text.byteLength g)]

/-- A text with nothing in it but what stands between tokens has no token but its end. -/
theorem lex_of_between {g : List Char} (h : Between g) (file : Nat) :
    (lex file (String.ofList g)).1 = [Token.endAt (Text.byteLength g)] := by
  have hnone : (Lexeme.ofText g).filterMap Token.ofLexeme? = [] := by
    rw [List.filterMap_eq_nil_iff]
    intro l hl
    rw [Token.ofLexeme?, Lexeme.isIdle_of_between h 0 l hl, Option.map_none]
  rw [lex_tokens, String.toList_ofList, hnone, List.nil_append]

/-- The tokens of a text tile it, and each that is an error is reported over just its place. -/
theorem lex_tiles (file : Nat) (content : String) :
    Tiles content (lex file content).1 ∧
      ∀ t ∈ (lex file content).1, t.kind = .error →
        ∃ d ∈ (lex file content).2, d.code = Problem.code ∧ d.span = t.span file := by
  have hpairs := pairwise_lex file content
  refine ⟨⟨?_, ?_, ?_, ?_, ?_⟩, fun t => exists_report_of_error⟩
  · rw [lex_tokens, List.getLast?_concat]
  · rw [lex_tokens, List.pairwise_append] at hpairs
    rw [lex_tokens, List.dropLast_concat]
    intro t ht
    have hbefore := hpairs.2.2 t ht _ (List.mem_singleton_self _)
    exact ⟨hbefore.inner, hbefore.filled⟩
  · exact hpairs.imp fun hbefore => ⟨hbefore.start, hbefore.stop⟩
  · exact fun t ht => slice?_of_mem_lex ht
  · intro p hp
    obtain ⟨g, hslice, hg⟩ := between_freeRanges [] content.toList 0 p hp
    exact ⟨g, hslice, hg, lex_of_between hg 0⟩

end Netlist
