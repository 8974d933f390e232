import Netlist.Design.Display
import Netlist.Proofs.Design.Alike
import Netlist.Proofs.Session.Growth

/-!
Modules as they are shown: every expression as its text, so that nothing is left of which index a
name has. Trees that are alike over two tables of names are shown alike, each through its own table,
and showing them succeeds.
-/
namespace Netlist

open List (Forall₂)

/-- Indices of one text in two tables. -/
def Names.Same (names names' : Names) (i j : Nat) : Prop :=
  ∃ text, names.resolve? i = some text ∧ names'.resolve? j = some text

theorem Names.Same.mono {a a' b b' : Names} (ha : a.Extends b) (ha' : a'.Extends b') {i j : Nat}
    (h : a.Same a' i j) : b.Same b' i j := by
  obtain ⟨text, hi, hj⟩ := h
  exact ⟨text, ha.resolve? hi, ha'.resolve? hj⟩

/-- The span of the same range in another file. -/
def Span.inFile (file : Nat) (s : Span) : Span := { s with file := file }

namespace Design

structure ShownInstance where
  name : String
  module : String
  generics : List String
  ports : List String
  span : Span
  deriving DecidableEq

structure ShownModule where
  name : String
  instances : List ShownInstance
  span : Span
  deriving DecidableEq

def Instance.shown (names : Names) (i : Instance) : Except Misuse ShownInstance := do
  let name ← i.name.text names
  let module ← i.module.text names
  let generics ← Expr.texts names i.generics
  let ports ← Expr.texts names i.ports
  return ⟨name, module, generics, ports, i.span⟩

/-- A module with its names looked up in `names`. -/
def Module.shown (names : Names) (m : Module) : Except Misuse ShownModule := do
  let name ← m.name.text names
  let instances ← m.instances.mapM (·.shown names)
  return ⟨name, instances, m.span⟩

def ShownInstance.inFile (file : Nat) (i : ShownInstance) : ShownInstance :=
  { i with span := i.span.inFile file }

def ShownModule.inFile (file : Nat) (m : ShownModule) : ShownModule :=
  { m with instances := m.instances.map (·.inFile file), span := m.span.inFile file }

variable {names names' : Names}

mutual

theorem Expr.Alike.text : {e e' : Expr} → e.Alike (names.Same names') e' →
    ∃ t, e.text names = .ok t ∧ e'.text names' = .ok t
  | .id _, _, .id h => by
    obtain ⟨t, hi, hj⟩ := h
    exact ⟨t, Names.resolve_eq_ok hi, Names.resolve_eq_ok hj⟩
  | .literal value, _, .literal _ => ⟨value.text, rfl, rfl⟩
  | .all, _, .all => ⟨_, rfl, rfl⟩
  | .null, _, .null => ⟨_, rfl, rfl⟩
  | .unary _ _, _, .unary ha => by
    obtain ⟨t, ht, ht'⟩ := Expr.Alike.text ha
    exact ⟨_, by rw [Expr.text, ht]; rfl, by rw [Expr.text, ht']; rfl⟩
  | .binary _ _ _, _, .binary ha hb => by
    obtain ⟨t, ht, ht'⟩ := Expr.Alike.text ha
    obtain ⟨u, hu, hu'⟩ := Expr.Alike.text hb
    exact ⟨_, by rw [Expr.text, ht, hu]; rfl, by rw [Expr.text, ht', hu']; rfl⟩
  | .ternary _ _ _, _, .ternary ha hb hc => by
    obtain ⟨t, ht, ht'⟩ := Expr.Alike.text ha
    obtain ⟨u, hu, hu'⟩ := Expr.Alike.text hb
    obtain ⟨v, hv, hv'⟩ := Expr.Alike.text hc
    exact ⟨_, by rw [Expr.text, ht, hu, hv]; rfl, by rw [Expr.text, ht', hu', hv']; rfl⟩
  | .call _ _, _, .call hf has => by
    obtain ⟨t, ht, ht'⟩ := Expr.Alike.text hf
    obtain ⟨ts, hts, hts'⟩ := Expr.Alike.texts has
    exact ⟨_, by rw [Expr.text, ht, hts]; rfl, by rw [Expr.text, ht', hts']; rfl⟩
  | .concat _, _, .concat has => by
    obtain ⟨ts, hts, hts'⟩ := Expr.Alike.texts has
    exact ⟨_, by rw [Expr.text, hts]; rfl, by rw [Expr.text, hts']; rfl⟩
  | .replicate _ _, _, .replicate hn has => by
    obtain ⟨t, ht, ht'⟩ := Expr.Alike.text hn
    obtain ⟨ts, hts, hts'⟩ := Expr.Alike.texts has
    exact ⟨_, by rw [Expr.text, ht, hts]; rfl, by rw [Expr.text, ht', hts']; rfl⟩

theorem Expr.Alike.texts : {es es' : List Expr} → Forall₂ (Expr.Alike (names.Same names')) es es' →
    ∃ ts, Expr.texts names es = .ok ts ∧ Expr.texts names' es' = .ok ts
  | [], _, .nil => ⟨[], rfl, rfl⟩
  | _ :: _, _, .cons he hes => by
    obtain ⟨t, ht, ht'⟩ := Expr.Alike.text he
    obtain ⟨ts, hts, hts'⟩ := Expr.Alike.texts hes
    exact ⟨t :: ts, by rw [Expr.texts, ht, hts]; rfl, by rw [Expr.texts, ht', hts']; rfl⟩

end

section Modules

variable {S : Span → Span → Prop} {file : Nat} (hS : ∀ s s', S s s' → s = s'.inFile file)

include hS

theorem Instance.Alike.shown {i i' : Instance} (h : i.Alike (names.Same names') S i') :
    ∃ v, i'.shown names' = .ok v ∧ i.shown names = .ok (v.inFile file) := by
  obtain ⟨name, hname, hname'⟩ := h.name.text
  obtain ⟨module, hmodule, hmodule'⟩ := h.module.text
  obtain ⟨generics, hgenerics, hgenerics'⟩ := Expr.Alike.texts h.generics
  obtain ⟨ports, hports, hports'⟩ := Expr.Alike.texts h.ports
  refine ⟨⟨name, module, generics, ports, i'.span⟩, ?_, ?_⟩
  · rw [Instance.shown, hname', hmodule', hgenerics', hports']
    rfl
  · rw [Instance.shown, hname, hmodule, hgenerics, hports, hS _ _ h.span]
    rfl

private theorem instances_shown {is is' : List Instance}
    (h : Forall₂ (Instance.Alike (names.Same names') S) is is') :
    ∃ vs, is'.mapM (·.shown names') = .ok vs ∧
      is.mapM (·.shown names) = .ok (vs.map (·.inFile file)) := by
  induction h with
  | nil => exact ⟨[], rfl, rfl⟩
  | cons hi his ih =>
    obtain ⟨v, hv, hv'⟩ := hi.shown hS
    obtain ⟨vs, hvs, hvs'⟩ := ih
    exact ⟨v :: vs, by rw [List.mapM_cons, hv, hvs]; rfl, by rw [List.mapM_cons, hv', hvs']; rfl⟩

/-- Modules that are alike are shown alike. -/
theorem Module.Alike.shown {m m' : Module} (h : m.Alike (names.Same names') S m') :
    ∃ v, m'.shown names' = .ok v ∧ m.shown names = .ok (v.inFile file) := by
  obtain ⟨name, hname, hname'⟩ := h.name.text
  obtain ⟨instances, hinstances, hinstances'⟩ := instances_shown hS h.instances
  refine ⟨⟨name, instances, m'.span⟩, ?_, ?_⟩
  · rw [Module.shown, hname', hinstances]
    rfl
  · rw [Module.shown, hname, hinstances', hS _ _ h.span]
    rfl

end Modules

end Design

end Netlist
