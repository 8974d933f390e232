import Netlist.Proofs.Token.Stretches

/-!
Trees of spans. A node is made of parts: tokens of its own and further nodes. Parts cover tokens if
each takes its share of them, one behind the other, and the span of each node runs over its share.
Only a node without parts can take nothing; it stands empty before the next token. Then all spans
nest: those of children lie in that of their parent, one behind the other.
-/
namespace Netlist

/-- A range of bytes inside another one. -/
structure Span.Within (inner outer : Span) : Prop where
  file : inner.file = outer.file
  start : outer.start ≤ inner.start
  proper : inner.start ≤ inner.stop
  stop : inner.stop ≤ outer.stop

theorem Placed.of_infix {ts us : List Token} (h : Placed us) (hin : ts <:+: us) : Placed ts :=
  ⟨h.apart.sublist hin.sublist, fun t ht => h.filled t (hin.mem ht)⟩

namespace Syntax

/-- A part of a node. -/
inductive Part where
  /-- A token of a kind that is accepted. -/
  | token (accepts : Kind → Bool)
  /-- Any number of such tokens. -/
  | tokens (accepts : Kind → Bool)
  /-- Tokens of these kinds, all or none of which are there. -/
  | perhaps (kinds : List Kind)
  | node (span : Span) (parts : List Part)

structure Node where
  span : Span
  parts : List Part

/-- A token of one kind. -/
def Part.mark (kind : Kind) : Part := .token fun k => k = kind

namespace Node

def part (n : Node) : Part := .node n.span n.parts

/-- A node that is a single token. -/
def leaf (accepts : Kind → Bool) (span : Span) : Node := ⟨span, [.token accepts]⟩

end Node

/-- Nodes that each stand behind a comma. -/
def afterCommas (nodes : List Node) : List Part := nodes.flatMap fun n => [.mark .comma, n.part]

/-- Nodes with commas between them. -/
def betweenCommas : List Node → List Part
  | [] => []
  | n :: nodes => n.part :: afterCommas nodes

/-- The nodes among some parts. -/
def Part.node? : Part → Option Node
  | .node span parts => some ⟨span, parts⟩
  | _ => none

def Node.children (n : Node) : List Node := n.parts.filterMap Part.node?

mutual

/-- The nodes in a part, each before those in it. -/
def Part.nodes : Part → List Node
  | .node span parts => ⟨span, parts⟩ :: nodesOf parts
  | .token _ => []
  | .tokens _ => []
  | .perhaps _ => []

def nodesOf : List Part → List Node
  | [] => []
  | part :: parts => part.nodes ++ nodesOf parts

end

/-- The parts cover these tokens of a file. -/
inductive Cover (file : Nat) : List Part → List Token → Prop
  | nil : Cover file [] []
  | token {accepts : Kind → Bool} {t : Token} {parts : List Part} {ts : List Token} :
      accepts t.kind = true → Cover file parts ts → Cover file (.token accepts :: parts) (t :: ts)
  | tokens {accepts : Kind → Bool} {us : List Token} {parts : List Part} {ts : List Token} :
      (∀ t ∈ us, accepts t.kind = true) → Cover file parts ts →
      Cover file (.tokens accepts :: parts) (us ++ ts)
  | absent {kinds : List Kind} {parts : List Part} {ts : List Token} : Cover file parts ts →
      Cover file (.perhaps kinds :: parts) ts
  | present {kinds : List Kind} {us : List Token} {parts : List Part} {ts : List Token} :
      us.map Token.kind = kinds → Cover file parts ts →
      Cover file (.perhaps kinds :: parts) (us ++ ts)
  | node {span : Span} {own : List Part} {us : List Token} {parts : List Part}
      {ts : List Token} : Cover file own us → span.Over file us → Cover file parts ts →
      Cover file (.node span own :: parts) (us ++ ts)
  | blank {t : Token} {parts : List Part} {ts : List Token} : Cover file parts (t :: ts) →
      Cover file (.node (t.span file).atStart [] :: parts) (t :: ts)

/-- A node over some tokens. -/
structure Node.Over (file : Nat) (n : Node) (ts : List Token) : Prop where
  cover : Cover file n.parts ts
  span : n.span.Over file ts

/-- A node over tokens, or one without tokens and parts: that one is empty where the next token
starts. -/
def Node.Lies (file : Nat) (n : Node) (ts r : List Token) : Prop :=
  n.Over file ts ∨ ts = [] ∧ n.parts = [] ∧ ∃ t ∈ r.head?, n.span = (t.span file).atStart

namespace Cover

variable {file : Nat} {parts more : List Part} {ts us : List Token} {t : Token}

theorem append (h : Cover file parts ts) (h' : Cover file more us) :
    Cover file (parts ++ more) (ts ++ us) := by
  induction h with
  | nil => exact h'
  | token ht _ ih => exact .token ht ih
  | tokens hts _ ih =>
    rw [List.append_assoc]
    exact .tokens hts ih
  | absent _ ih => exact .absent ih
  | present hts _ ih =>
    rw [List.append_assoc]
    exact .present hts ih
  | node hown hspan _ _ ih =>
    rw [List.append_assoc]
    exact .node hown hspan ih
  | blank _ ih => exact .blank ih

theorem mark {kind : Kind} (ht : t.kind = kind) (h : Cover file parts ts) :
    Cover file (.mark kind :: parts) (t :: ts) := .token (decide_eq_true ht) h

theorem of_mark {kind : Kind} (h : Cover file (.mark kind :: parts) ts) :
    ∃ t us, ts = t :: us ∧ t.kind = kind ∧ Cover file parts us := by
  cases h with
  | token ht h => exact ⟨_, _, rfl, of_decide_eq_true ht, h⟩

theorem of_nil (h : Cover file [] ts) : ts = [] := by
  cases h
  rfl

/-- Nodes that are covered by nothing are not there. -/
theorem of_no_tokens (h : Cover file parts []) (hnodes : ∀ p ∈ parts, p.node?.isSome) :
    parts = [] := by
  generalize hts : ([] : List Token) = ts at h
  cases h with
  | nil => rfl
  | node _ hspan _ =>
    exact absurd (List.append_eq_nil_iff.mp hts.symm).1 hspan.ne_nil
  | token => cases hts
  | blank => cases hts
  | tokens => cases hnodes _ List.mem_cons_self
  | absent => cases hnodes _ List.mem_cons_self
  | present => cases hnodes _ List.mem_cons_self

/-- Two tokens that may be left out. -/
theorem pair {k k' : Kind} {t' : Token} (ht : t.kind = k) (ht' : t'.kind = k') :
    Cover file [.perhaps [k, k']] [t, t'] := by
  have hkinds : [t, t'].map Token.kind = [k, k'] := by
    rw [List.map_cons, List.map_singleton, ht, ht']
  exact .present hkinds .nil

theorem child {n : Node} (hn : n.Over file us) (h : Cover file parts ts) :
    Cover file (n.part :: parts) (us ++ ts) := .node hn.cover hn.span h

/-- A single node. -/
theorem sole {n : Node} (hn : n.Over file ts) : Cover file [n.part] ts := by
  have hcover := child hn .nil
  rwa [List.append_nil] at hcover

end Cover

/-- The parts cover `ts` in front of whatever is covered from the first one of `r` on. A node
without tokens at their end needs a token behind it. -/
def Leads (file : Nat) (parts : List Part) (ts r : List Token) : Prop :=
  ∀ t ∈ r.head?, ∀ more us, Cover file more (t :: us) →
    Cover file (parts ++ more) (ts ++ t :: us)

namespace Leads

variable {file : Nat} {parts parts' : List Part} {ts us r : List Token} {t : Token}

theorem of_cover (h : Cover file parts ts) : Leads file parts ts r :=
  fun _ _ _ _ hmore => h.append hmore

theorem nil : Leads file [] [] r := of_cover .nil

theorem node {n : Node} (h : n.Lies file ts r) : Leads file [n.part] ts r := by
  rcases h with h | ⟨rfl, hparts, t, ht, hspan⟩
  · exact of_cover (.sole h)
  · intro u hu more us hmore
    cases Option.mem_unique ht hu
    rw [Node.part, hparts, hspan]
    exact .blank hmore

theorem child {n : Node} (h : n.Over file ts) : Leads file [n.part] ts r := node (.inl h)

theorem append (h : Leads file parts ts (us ++ r)) (h' : Leads file parts' us r) :
    Leads file (parts ++ parts') (ts ++ us) r := by
  intro t ht more vs hmore
  have hnext := h' t ht more vs hmore
  rw [List.append_assoc, List.append_assoc]
  cases us with
  | nil => exact h t ht _ _ hnext
  | cons u us => exact h u rfl _ _ hnext

/-- A token of a given kind closes a row of parts. -/
theorem close (h : Leads file parts ts (t :: r)) {kind : Kind} (ht : t.kind = kind) :
    Cover file (parts ++ [.mark kind]) (ts ++ [t]) :=
  h t rfl _ _ (.mark ht .nil)

end Leads

theorem Node.Over.leaf {file : Nat} {accepts : Kind → Bool} {span : Span} {t : Token}
    (ht : accepts t.kind = true) (hspan : span = t.span file) :
    (Node.leaf accepts span).Over file [t] :=
  ⟨.token ht .nil, t, t, rfl, rfl, hspan⟩

/-- The spans around a node: it lies over some of the tokens of a file, and its children lie in it,
one behind the other. -/
structure Node.Nests (file : Nat) (all : List Token) (n : Node) : Prop where
  lies : ∃ before ts after, all = before ++ ts ++ after ∧ n.Lies file ts after
  within : ∀ child ∈ n.children, child.span.Within n.span
  apart : n.children.Pairwise fun a b => a.span.stop ≤ b.span.start

namespace Cover

variable {file : Nat} {parts : List Part} {ts all : List Token}

/-- Each node among the parts starts with one of the tokens, and stops with one or where it
starts. -/
theorem ends (h : Cover file parts ts) (hplaced : Placed ts) :
    ∀ n ∈ parts.filterMap Part.node?, n.span.file = file ∧ ∃ first ∈ ts, ∃ last ∈ ts,
      n.span.start = first.start ∧ n.span.start ≤ n.span.stop ∧ n.span.stop ≤ last.stop := by
  have wider {us vs : List Token} {n : Node} (hin : ∀ t ∈ us, t ∈ vs)
      (hn : n.span.file = file ∧ ∃ first ∈ us, ∃ last ∈ us, n.span.start = first.start ∧
        n.span.start ≤ n.span.stop ∧ n.span.stop ≤ last.stop) :
      n.span.file = file ∧ ∃ first ∈ vs, ∃ last ∈ vs, n.span.start = first.start ∧
        n.span.start ≤ n.span.stop ∧ n.span.stop ≤ last.stop := by
    obtain ⟨hfile, first, hfirst, last, hlast, hspan⟩ := hn
    exact ⟨hfile, first, hin first hfirst, last, hin last hlast, hspan⟩
  induction h with
  | nil => exact List.forall_mem_nil _
  | token _ _ ih =>
    intro n hn
    have hlater := hplaced.of_infix (List.suffix_cons _ _).isInfix
    exact wider (fun t => List.mem_cons_of_mem _) (ih hlater n hn)
  | tokens _ _ ih =>
    intro n hn
    exact wider (fun t => List.mem_append_right _) (ih (placed_append.mp hplaced).2.1 n hn)
  | absent _ ih => exact ih hplaced
  | present _ _ ih =>
    intro n hn
    exact wider (fun t => List.mem_append_right _) (ih (placed_append.mp hplaced).2.1 n hn)
  | @node span own us parts ts _ hspan _ _ ih =>
    obtain ⟨hus, hts, -⟩ := placed_append.mp hplaced
    refine List.forall_mem_cons.mpr ⟨?_, fun n hn => ?_⟩
    · obtain ⟨first, hfirst, last, hlast, hstart, hstop⟩ := hspan.ends
      exact ⟨hspan.file_eq, first, List.mem_append_left _ hfirst, last, List.mem_append_left _ hlast,
        hstart, (hspan.filled hus).le, hstop.le⟩
    · exact wider (fun t => List.mem_append_right _) (ih hts n hn)
  | @blank t parts ts _ ih =>
    refine List.forall_mem_cons.mpr ⟨?_, ih hplaced⟩
    exact ⟨rfl, t, List.mem_cons_self, t, List.mem_cons_self, rfl, le_rfl,
      (hplaced.filled t List.mem_cons_self).le⟩

/-- The nodes among the parts stand one behind the other. -/
theorem apart (h : Cover file parts ts) (hplaced : Placed ts) :
    (parts.filterMap Part.node?).Pairwise fun a b => a.span.stop ≤ b.span.start := by
  induction h with
  | nil => exact .nil
  | token _ _ ih => exact ih (hplaced.of_infix (List.suffix_cons _ _).isInfix)
  | tokens _ _ ih => exact ih (placed_append.mp hplaced).2.1
  | absent _ ih => exact ih hplaced
  | present _ _ ih => exact ih (placed_append.mp hplaced).2.1
  | node _ hspan hrest _ ih =>
    obtain ⟨-, hts, hacross⟩ := placed_append.mp hplaced
    refine List.pairwise_cons.mpr ⟨fun n hn => ?_, ih hts⟩
    obtain ⟨_, _, last, hlast, -, hstop⟩ := hspan.ends
    obtain ⟨-, first, hfirst, _, -, hstart, -⟩ := hrest.ends hts n hn
    rw [hstop, hstart]
    exact hacross last hlast first hfirst
  | @blank t parts ts hrest ih =>
    refine List.pairwise_cons.mpr ⟨fun n hn => ?_, ih hplaced⟩
    obtain ⟨-, first, hfirst, _, -, hstart, -⟩ := hrest.ends hplaced n hn
    rw [hstart]
    rcases List.mem_cons.mp hfirst with rfl | hfirst
    · exact le_rfl
    · exact (hplaced.filled t List.mem_cons_self).le.trans
        ((List.pairwise_cons.mp hplaced.apart).1 first hfirst)

end Cover

section Nesting

variable {file : Nat} {parts : List Part} {n : Node} {before ts after all : List Token}

theorem Node.Over.nests (h : n.Over file ts) (hplaced : Placed ts)
    (hall : all = before ++ ts ++ after) : n.Nests file all := by
  refine ⟨⟨before, ts, after, hall, .inl h⟩, fun child hchild => ?_, h.cover.apart hplaced⟩
  obtain ⟨hfile, first, hfirst, last, hlast, hstart, hproper, hstop⟩ :=
    h.cover.ends hplaced child hchild
  have hfront := h.span.liesIn hplaced hfirst
  have hback := h.span.liesIn hplaced hlast
  simp only [Token.liesIn, Bool.and_eq_true, decide_eq_true_eq] at hfront hback
  exact ⟨hfile.trans h.span.file_eq.symm, hstart ▸ hfront.1, hproper, hstop.trans hback.2⟩

/-- A node without parts. -/
theorem Node.Lies.nests_blank (h : n.Lies file [] after) (hparts : n.parts = [])
    (hall : all = before ++ after) : n.Nests file all := by
  refine ⟨⟨before, [], after, by rwa [List.append_nil], h⟩, ?_, ?_⟩
  · rw [Node.children, hparts]
    exact List.forall_mem_nil _
  · rw [Node.children, hparts]
    exact .nil

/-- If parts cover tokens, the spans of all nodes in them nest. -/
theorem Cover.nests (h : Cover file parts ts) (hplaced : Placed ts) (before after : List Token)
    (hall : all = before ++ ts ++ after) : ∀ n ∈ nodesOf parts, n.Nests file all := by
  induction h generalizing before after with
  | nil => exact List.forall_mem_nil _
  | @token _ t _ ts _ _ ih =>
    have hts := hplaced.of_infix (List.suffix_cons t ts).isInfix
    exact ih hts (before ++ [t]) after (by simp [hall])
  | @tokens _ us _ _ _ _ ih =>
    exact ih (placed_append.mp hplaced).2.1 (before ++ us) after (by simp [hall])
  | absent _ ih => exact ih hplaced before after hall
  | @present _ us _ _ _ _ ih =>
    exact ih (placed_append.mp hplaced).2.1 (before ++ us) after (by simp [hall])
  | @node span own us parts ts hown hspan _ ihOwn ih =>
    obtain ⟨hus, hts, -⟩ := placed_append.mp hplaced
    have hfront : all = before ++ us ++ (ts ++ after) := by simp [hall]
    have hnode : Node.Over file ⟨span, own⟩ us := ⟨hown, hspan⟩
    rw [nodesOf, Part.nodes]
    refine List.forall_mem_append.mpr ⟨List.forall_mem_cons.mpr ⟨?_, ?_⟩, ?_⟩
    · exact hnode.nests hus hfront
    · exact ihOwn hus before (ts ++ after) hfront
    · exact ih hts (before ++ us) after (by simp [hall])
  | @blank t parts ts _ ih =>
    have hnode : Node.Lies file ⟨(t.span file).atStart, []⟩ [] (t :: ts ++ after) :=
      .inr ⟨rfl, rfl, t, rfl, rfl⟩
    rw [nodesOf, Part.nodes]
    refine List.forall_mem_append.mpr ⟨List.forall_mem_cons.mpr ⟨?_, ?_⟩, ?_⟩
    · exact hnode.nests_blank rfl (by rw [hall, List.append_assoc])
    · exact List.forall_mem_nil _
    · exact ih hplaced before after hall

/-- The spans of a node and of all nodes in it nest. -/
theorem Node.Lies.nests (h : n.Lies file ts after) (hplaced : Placed ts)
    (hall : all = before ++ ts ++ after) : ∀ m ∈ n.part.nodes, m.Nests file all := by
  rw [Node.part, Part.nodes]
  rcases h with h | ⟨rfl, hparts, hspan⟩
  · exact List.forall_mem_cons.mpr ⟨h.nests hplaced hall, h.cover.nests hplaced before after hall⟩
  · rw [List.append_nil] at hall
    have hnode : n.Lies file [] after := .inr ⟨rfl, hparts, hspan⟩
    refine List.forall_mem_cons.mpr ⟨hnode.nests_blank hparts hall, ?_⟩
    rw [hparts]
    exact List.forall_mem_nil _

/-- A leaf has the span of one token. -/
theorem Node.Nests.of_leaf {accepts : Kind → Bool} {span : Span}
    (h : (Node.leaf accepts span).Nests file all) :
    ∃ t ∈ all, accepts t.kind = true ∧ span = t.span file := by
  obtain ⟨before, ts, after, rfl, h | ⟨-, hnil, -⟩⟩ := h.lies
  · obtain ⟨hcover, hspan⟩ := h
    cases hcover with
    | token ht hnil =>
      cases hnil
      obtain ⟨first, last, hfirst, hlast, hspan⟩ := hspan
      cases hfirst
      cases hlast
      exact ⟨_, by simp, ht, hspan⟩
  · cases hnil

end Nesting

end Syntax

end Netlist
