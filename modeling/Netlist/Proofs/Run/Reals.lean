import Netlist.Proofs.Lowering.Reals
import Netlist.Proofs.Run.Identity

/-!
The reals of a run. Each one in a module is a token of its file without the separators; it is a
number unless its exponent was left without digits, and nothing is reported about that.
-/
namespace Netlist

open Lowering
open Piece (RealNumber UnfinishedReal)

namespace Lowering

variable {cs : List Char} {width : Option Nat} {signed : Bool} {text : String}

section Numbers

private theorem radixNumber?_ne_real : radixNumber? width signed cs ≠ some (.real text) := by
  cases cs with
  | nil => nofun
  | cons c cs =>
    cases hradix : radix? c with
    | none => simp [radixNumber?, hradix]
    | some radix => simp [radixNumber?, hradix]

private theorem basedNumber?_ne_real : basedNumber? width cs ≠ some (.real text) := by
  cases cs with
  | nil => nofun
  | cons c cs =>
    rw [basedNumber?]
    split <;> exact radixNumber?_ne_real

private theorem tickNumber?_ne_real {size : List Char} :
    tickNumber? size cs ≠ some (.real text) := by
  unfold tickNumber?
  dsimp only
  split
  · split
    · split
      · nofun
      · exact basedNumber?_ne_real
    · exact basedNumber?_ne_real
  · cases width? (withoutSeparators (Text.trim size)) with
    | none => nofun
    | some w => exact basedNumber?_ne_real

private theorem plainNumber?_ne_real : plainNumber? cs ≠ some (.real text) := by
  unfold plainNumber?
  dsimp only
  split
  · nofun
  · split <;> nofun

theorem number?_ne_real : number? cs ≠ some (.real text) := by
  unfold number?
  split
  · exact plainNumber?_ne_real
  · exact tickNumber?_ne_real

end Numbers

/-- Reals come from reals, as they are written there. -/
theorem Lowered.of_real {ctx : Context} {names : Names} {a : Syntax.Atom}
    (h : Lowered ctx names a (.literal (.real text))) :
    ∃ span source, a = .real span ∧ ctx.sources.snippet span = .ok source ∧
      text = String.ofList (withoutSeparators source.toList) := by
  generalize hb : Design.Atom.literal (.real text) = b at h
  cases h with
  | name _ => cases hb
  | system _ => cases hb
  | keyword _ => cases hb
  | number _ hvalue =>
    cases hb
    exact absurd hvalue number?_ne_real
  | @real span source hsource =>
    cases hb
    exact ⟨span, source, rfl, hsource, rfl⟩
  | string _ => cases hb

end Lowering

namespace Run

/-- A real is a number unless its exponent is unfinished. -/
theorem real_of_token {file : Nat} {content : String} {t : Token}
    (ht : t ∈ (lex file content).1) (hkind : t.kind = .realLiteral) :
    RealNumber (withoutSeparators t.text.toList) ↔
      ¬ UnfinishedReal (withoutSeparators t.text.toList) :=
  realNumber_iff (realText_of_mem_lex ht hkind)

/-- A real of a file that is read is one of its tokens. -/
theorem Read.real {ctx : Context} {n : Nat} {names later : Names} {tree : Syntax.SourceText}
    {modules : List Design.Module} (h : Read ctx n names later tree modules) {text : String}
    (htext : Design.Atom.literal (.real text) ∈ modules.flatMap Design.Module.atoms) :
    ∃ f, ctx.sources.file n = .ok f ∧ ∃ t ∈ (lex n f.content).1, t.kind = .realLiteral ∧
      text = String.ofList (withoutSeparators t.text.toList) := by
  obtain ⟨f, hf, hatoms⟩ := h.atoms
  obtain ⟨a, ha, hlowered⟩ := h.lowered.exists_of_mem htext
  obtain ⟨span, source, rfl, hsource, rfl⟩ := hlowered.of_real
  obtain ⟨t, ht, hkind, rfl⟩ := hatoms _ ha
  rw [snippet_of_mem_lex hf ht] at hsource
  obtain rfl := Except.ok.inj hsource
  exact ⟨f, hf, t, ht, hkind, rfl⟩

/-- Every real, as a token without its separators and as a literal of a module, is a number unless
its exponent is unfinished. -/
theorem texts_reals (files : List (String × String)) (level : NoticeLevel) :
    (∀ (n : Fin files.length), ∀ t ∈ (lex n (files.get n).2).1, t.kind = .realLiteral →
      (RealNumber (withoutSeparators t.text.toList) ↔
        ¬ UnfinishedReal (withoutSeparators t.text.toList))) ∧
    ∃ o, texts files level = .ok o ∧ ∀ m ∈ o.modules, ∀ text,
      Design.Atom.literal (.real text) ∈ m.atoms →
        (RealNumber text.toList ↔ ¬ UnfinishedReal text.toList) ∧
          ∃ n : Fin files.length, ∃ t ∈ (lex n (files.get n).2).1, t.kind = .realLiteral ∧
            text = String.ofList (withoutSeparators t.text.toList) := by
  refine ⟨fun n t ht hkind => real_of_token ht hkind, ?_⟩
  have hsize : ∀ n ∈ List.range (context files level).sources.files.size,
      n < (context files level).sources.files.size := fun n hn => List.mem_range.mp hn
  obtain ⟨rs, t, hfiles, hrun, hplaces⟩ := exists_readings hsize [] {}
  refine ⟨_, all_of_run hrun, fun m hm text htext => ?_⟩
  obtain ⟨ms, hms, hm⟩ := List.mem_flatten.mp hm
  obtain ⟨r, hr, rfl⟩ := List.mem_map.mp hms
  obtain ⟨f, hf, u, hu, hkind, rfl⟩ :=
    (hplaces r hr).read.real (List.mem_flatMap.mpr ⟨m, hm, htext⟩)
  have hlt : r.file < files.length := by
    have hfile : r.file ∈ rs.map Reading.file := List.mem_map_of_mem hr
    rw [hfiles, size_context] at hfile
    exact List.mem_range.mp hfile
  have hsame := hf.symm.trans (file_context (List.getElem?_eq_getElem hlt))
  obtain rfl := Except.ok.inj hsame
  refine ⟨?_, ⟨r.file, hlt⟩, u, hu, hkind, rfl⟩
  rw [String.toList_ofList]
  exact real_of_token hu hkind

/-- With all its parts a real is a number; the separator is not kept. -/
theorem texts_reals_scientific :
    ∃ o, texts [("a.sv", "module m; foo #(1_0.5e-3) u (); endmodule")] .warning = .ok o ∧
      (∃ m ∈ o.modules, Design.Atom.literal (.real "10.5e-3") ∈ m.atoms) ∧
      RealNumber "10.5e-3".toList := by
  obtain ⟨-, o, ho, hreals⟩ :=
    texts_reals [("a.sv", "module m; foo #(1_0.5e-3) u (); endmodule")] .warning
  have hatoms : (texts [("a.sv", "module m; foo #(1_0.5e-3) u (); endmodule")]
      .warning).toOption.map (fun o => o.modules.map Design.Module.atoms) =
        some [[.id 0, .id 2, .id 1, .literal (.real "10.5e-3")]] := by decide +kernel
  rw [ho] at hatoms
  have hlists : o.modules.map Design.Module.atoms =
      [[.id 0, .id 2, .id 1, .literal (.real "10.5e-3")]] := Option.some.inj hatoms
  have hmem := List.mem_singleton_self [Design.Atom.id 0, .id 2, .id 1, .literal (.real "10.5e-3")]
  rw [← hlists] at hmem
  obtain ⟨m, hm, hlist⟩ := List.mem_map.mp hmem
  have htext : Design.Atom.literal (.real "10.5e-3") ∈ m.atoms := by simp [hlist]
  refine ⟨o, ho, ⟨m, hm, htext⟩, (hreals m hm _ htext).1.mpr fun hunfinished => ?_⟩
  exact absurd hunfinished.endsInDigit (by decide)

/-- A mark without digits makes a real that is no number, and it gets into the modules without a
report. -/
theorem unfinished_real_kept :
    ((lex 0 "1e").2 = [] ∧ ∃ t ∈ (lex 0 "1e").1, t.kind = .realLiteral ∧
      ¬ RealNumber (withoutSeparators t.text.toList)) ∧
    (texts [("test.sv", "module m; foo #(1e) u (); endmodule")] .warning).toOption.map
        (fun o => (o.diagnostics.length, o.modules.flatMap Design.Module.atoms)) =
      some (0, [.id 0, .id 2, .id 1, .literal (.real "1e")]) :=
  ⟨⟨by decide +kernel, ⟨.realLiteral, "1e", 0, 2⟩, by decide +kernel, rfl,
    fun h => absurd h.endsInDigit (by decide)⟩, by decide +kernel⟩

end Run

end Netlist
