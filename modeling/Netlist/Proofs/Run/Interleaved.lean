import Netlist.Proofs.Run.Safety
import Netlist.Proofs.Run.Sorting
import Netlist.Proofs.Session.Pool

/-!
Runs whose files are worked on at the same time. The tasks of the files share names and log, and
take turns in any order. What comes out, with names looked up and diagnostics sorted, does not
depend on the order: it is what the files give one by one, each in a session of its own, put
together.
-/
namespace Netlist

open List (Forall₂)
open Lowering (Context NoticeLevel)

/-- The same diagnostic in another file. -/
def Diagnostic.inFile (file : Nat) (d : Diagnostic) : Diagnostic :=
  { d with
    span := d.span.inFile file
    labels := d.labels.map fun l => { l with span := l.span.inFile file } }

/-- What is to be seen of an outcome. -/
structure View where
  modules : List Design.ShownModule
  diagnostics : List Diagnostic

namespace View

def inFile (file : Nat) (v : View) : View :=
  ⟨v.modules.map (·.inFile file), v.diagnostics.map (·.inFile file)⟩

/-- Views one behind the other. -/
def join (vs : List View) : View := ⟨vs.flatMap (·.modules), vs.flatMap (·.diagnostics)⟩

end View

def Outcome.view (o : Outcome) : Except Misuse View := do
  let modules ← o.modules.mapM (·.shown o.names)
  return ⟨modules, o.diagnostics⟩

namespace Run

def context (files : List (String × String)) (level : NoticeLevel) : Context :=
  { sources := Sources.ofList files, level := level }

/-- What one text gives in a session of its own, seen as the file with this number. -/
def viewAs (level : NoticeLevel) (file : Nat) (text : String × String) : Except Misuse View := do
  let v ← (← texts [text] level).view
  return v.inFile file

/-- What the texts give one by one. -/
def separately (files : List (String × String)) (level : NoticeLevel) : Except Misuse View := do
  let views ← files.zipIdx.mapM fun (text, n) => viewAs level n text
  return .join views

/-- The tasks of all files in a new session. -/
def pool (ctx : Context) : Pool (Except Misuse (List Design.Module)) where
  tasks := (List.range ctx.sources.files.size).map fun n => (file ctx n).run

/-- The outcome of a run whose tasks take turns as the schedule says, if it lasts until all of them
are done. -/
def interleaved (ctx : Context) (schedule : List Nat) : Option (Except Misuse Outcome) :=
  let p := (pool ctx).run schedule
  p.results?.map fun results =>
    (results.mapM fun r => r).map fun modules => outcome ctx modules p.session

section Files

variable {ctx ctx' : Context} {n m : Nat} {f f' : SourceFile} {names names' : Names}

/-- One text as a file of two sessions: the work on both goes hand in hand. -/
theorem agree_file (hf : ctx.sources.file n = .ok f) (hf' : ctx'.sources.file m = .ok f')
    (hcontent : f'.content = f.content) (hlevel : ctx.level = ctx'.level) :
    SessionM.Agree
      (Pairing.ofText f.content n m (names.Same names') (names.Same names') True)
      (Forall₂ (Design.Module.Alike (names.Same names') (Span.SameRange f.content n m)))
      (file ctx n) (file ctx' m) := by
  have hparse : SessionM.Agree
      (Pairing.ofText f.content n m (names.Same names') (names.Same names') True)
      (Syntax.SourceText.Alike (Frame.ofText f.content n m (names.Same names') True True))
      (Parser.parsing Parser.sourceText ctx.sources n)
      (Parser.parsing Parser.sourceText ctx'.sources m) := by
    refine .bind (.ofExcept hf hf' (Q := fun g g' => g = f ∧ g' = f') ⟨rfl, rfl⟩) ?_
    rintro _ _ ⟨rfl, rfl⟩
    rw [hcontent]
    exact agree_parsingText (fun _ => trivial) (Parser.mirror_sourceText trivial)
  have hlowers : Lowering.Lowers (Frame.ofText f.content n m (names.Same names') True True)
      (Pairing.ofText f.content n m (names.Same names') (names.Same names') True)
      (names.Same names') ctx ctx' :=
    lowers_ofText hf hf' rfl hcontent hlevel (fun _ _ h => h) (fun _ _ h => h) fun _ _ h => h
  exact .bind hparse fun _ _ htext => Lowering.agree_sourceText hlowers faults_alike htext

theorem modules_shown {content : String} {ms ms' : List Design.Module}
    (h : Forall₂ (Design.Module.Alike (names.Same names') (Span.SameRange content n m)) ms ms') :
    ∃ vs, ms'.mapM (·.shown names') = .ok vs ∧
      ms.mapM (·.shown names) = .ok (vs.map (·.inFile n)) := by
  induction h with
  | nil => exact ⟨[], rfl, rfl⟩
  | cons hm hms ih =>
    obtain ⟨v, hv, hv'⟩ := hm.shown fun _ _ h => h.eq_inFile
    obtain ⟨vs, hvs, hvs'⟩ := ih
    exact ⟨v :: vs, by rw [List.mapM_cons, hv, hvs]; rfl, by rw [List.mapM_cons, hv', hvs']; rfl⟩

theorem diagnostic_inFile {content : String} {d d' : Diagnostic}
    (h : d.Alike (Span.SameRange content n m) d') : d = d'.inFile n := by
  obtain ⟨hspan, hsame, hlabels⟩ := h
  have hnone : d'.labels = [] := by
    rw [hsame] at hlabels
    exact hlabels
  rw [hsame, Diagnostic.inFile, hnone, hspan.eq_inFile]
  rfl

/-- Diagnostics of one file are sorted alike wherever the file stands. -/
theorem mergeSort_inFile {content : String} {files : Nat} (hn : n < files)
    {ds ds' : List Diagnostic}
    (h : Forall₂ (Diagnostic.Alike (Span.SameRange content n 0)) ds ds') :
    ds.mergeSort (inOrder files) = (ds'.mergeSort (inOrder 1)).map (·.inFile n) := by
  have hmap : ds = ds'.map (·.inFile n) := by
    rw [← List.forall₂_eq_eq_eq, List.forall₂_map_right_iff]
    exact h.imp fun _ _ hd => diagnostic_inFile hd
  have hfile : ∀ d ∈ ds', d.span.file = 0 :=
    ((List.forall₂_and_left _ _).mp (h.flip.imp fun d' d hd => ⟨hd.span.file', hd⟩)).1
  have hrank {d : Diagnostic} (hd : d ∈ ds') :
      rank 1 d = 1 ∧ rank files (d.inFile n) = n + 1 := by
    constructor
    · simp [rank, hfile d hd]
    · simp [rank, Diagnostic.inFile, Span.inFile, hn]
  rw [hmap, ← List.map_mergeSort]
  intro a ha b hb
  rw [Bool.eq_iff_iff, inOrder_iff, inOrder_iff, (hrank ha).1, (hrank ha).2, (hrank hb).1,
    (hrank hb).2]
  simp [Diagnostic.inFile, Span.inFile]

end Files

section Companions

variable {files : List (String × String)} {level : NoticeLevel}

theorem size_context : (context files level).sources.files.size = files.length := by
  simp [context, Sources.files_ofList]

theorem file_context {n : Nat} {f : String × String} (h : files[n]? = some f) :
    (context files level).sources.file n = .ok ⟨f.1, f.2⟩ := by
  simp [Sources.file_eq_ok_iff, context, Sources.files_ofList, h]

variable (files level)

/-- The work on one file, in a session of its own. -/
def companion (n : Nat) : Task (Except Misuse (List Design.Module)) × Session :=
  ((file (context files[n]?.toList level) 0).run, {})

/-- The names that a companion leaves. -/
def companionNames (n : Nat) : Names :=
  ((companion files level n).1.run (companion files level n).2).2.names

def contentOf (n : Nat) : String := (files[n]?.map Prod.snd).getD ""

/-- The work on a file and its companion, given the names known in the end. -/
def companionPairing (later : Names) (n : Nat) : Pairing :=
  .ofText (contentOf files n) n 0 (later.Same (companionNames files level n))
    (later.Same (companionNames files level n)) True

/-- At the start each task is abreast of its companion. -/
theorem inStep_pool (later : Names) :
    Pool.InStep (companionPairing files level later)
      (fun n => Worked (Forall₂ (Design.Module.Alike (later.Same (companionNames files level n))
        (Span.SameRange (contentOf files n) n 0))))
      (companionNames files level) (pool (context files level)) (companion files level) where
  tasks := by
    intro n x hx
    obtain ⟨f, hn, rfl⟩ : ∃ f, files[n]? = some f ∧ x = (file (context files level) n).run := by
      have hlt : n < files.length := by
        have hlt := (List.getElem?_eq_some_iff.mp hx).1
        simpa [pool, size_context] using hlt
      refine ⟨files[n], List.getElem?_eq_getElem hlt, ?_⟩
      simpa [pool, size_context, hlt] using hx.symm
    have hf : (context files level).sources.file n = .ok ⟨f.1, f.2⟩ := file_context hn
    have hf' : (context files[n]?.toList level).sources.file 0 = .ok ⟨f.1, f.2⟩ := by
      rw [hn]
      exact file_context rfl
    have hcontent : contentOf files n = f.2 := by simp [contentOf, hn]
    obtain ⟨_, _, -, -, -, hhits⟩ := file_alone hf' {}
    refine ⟨?_, hhits, List.nil_subset _⟩
    rw [companionPairing, hcontent]
    exact agree_file hf hf' rfl rfl
  log _ _ := .nil
  files := nofun
  final _ := rfl

theorem byTexts_companionPairing (later : Names) (n : Nat) :
    (companionPairing files level later n).ByTexts later (companionNames files level n) :=
  ⟨fun text _ _ hi hj => ⟨text, hi, hj⟩, fun _ _ h => h, trivial⟩

variable {files level}

theorem names_distinct (schedule : List Nat) :
    ((pool (context files level)).run schedule).session.names.Distinct :=
  Pool.names_distinct Names.distinct_empty schedule

/-- Every diagnostic of a run lies in one of its files. -/
theorem file_lt_of_mem_held (schedule : List Nat) :
    ∀ d ∈ ((pool (context files level)).run schedule).session.log.held.toList,
      d.span.file < files.length := by
  have hrun := (inStep_pool files level _).run (byTexts_companionPairing files level _)
    (names_distinct schedule) (fun _ _ _ hd => hd.span.file) (Names.Extends.refl _)
  intro d hd
  have hlt := hrun.files d hd
  rw [Pool.length_run] at hlt
  simpa [pool, size_context] using hlt

/-- In a run that is done each file has given what it gives alone. -/
theorem view_of_results {schedule : List Nat} {results : List (Except Misuse (List Design.Module))}
    (hresults : ((pool (context files level)).run schedule).results? = some results) {n : Nat}
    {f : String × String} (hf : files[n]? = some f) {r : Except Misuse (List Design.Module)}
    (hr : results[n]? = some r) :
    ∃ modules v, r = .ok modules ∧ viewAs level n f = .ok v ∧
      modules.mapM (·.shown ((pool (context files level)).run schedule).session.names) =
        .ok v.modules ∧
      (((pool (context files level)).run schedule).session.log.held.toList.filter
        fun d => d.span.file = n).mergeSort (inOrder files.length) = v.diagnostics := by
  obtain ⟨hresult, hlog⟩ := (inStep_pool files level _).results
    (byTexts_companionPairing files level _) (names_distinct schedule)
    (fun _ _ _ hd => hd.span.file) (Names.Extends.refl _) hresults hr
  rcases hrun : (companion files level n).1.run (companion files level n).2 with ⟨r', t⟩
  have hnames : companionNames files level n = t.names := by rw [companionNames, hrun]
  rw [hrun, hnames] at hresult
  rw [hrun] at hlog
  cases hresult with
  | @ok modules modules' hmodules =>
    obtain ⟨vs, hvs, hvs'⟩ := modules_shown hmodules
    have hsize : (context [f] level).sources.files.size = 1 := size_context
    have htexts : texts [f] level = .ok (outcome (context [f] level) [modules'] t) := by
      refine all_single hsize ?_
      rw [companion, hf] at hrun
      exact hrun
    have hlt : n < files.length := (List.getElem?_eq_some_iff.mp hf).1
    refine ⟨modules, ⟨vs.map (·.inFile n), (t.log.held.toList.mergeSort (inOrder 1)).map
      (·.inFile n)⟩, rfl, ?_, hvs', mergeSort_inFile hlt hlog⟩
    have hview : (outcome (context [f] level) [modules'] t).view =
        .ok ⟨vs, t.log.held.toList.mergeSort (inOrder 1)⟩ := by
      simp only [Outcome.view, outcome, List.flatten_singleton, hvs, hsize]
      rfl
    simp only [viewAs, htexts, bind, Except.bind, hview]
    rfl

end Companions

section Lists

variable {α β : Type} {f : α → Except Misuse β}

theorem mapM_eq_ok {as : List α} {bs : List β} (h : Forall₂ (fun a b => f a = .ok b) as bs) :
    as.mapM f = .ok bs := by
  induction h with
  | nil => rfl
  | cons hab _ ih => rw [List.mapM_cons, hab, ih]; rfl

theorem mapM_flatten_eq_ok {lists : List (List α)} {parts : List (List β)}
    (h : Forall₂ (fun l part => l.mapM f = .ok part) lists parts) :
    lists.flatten.mapM f = .ok parts.flatten := by
  induction h with
  | nil => rfl
  | cons hfirst _ ih => rw [List.flatten_cons, List.mapM_append, hfirst, ih]; rfl

end Lists

variable {files : List (String × String)} {level : NoticeLevel}

/-- A run that is done shows what the files give one by one. -/
theorem view_interleaved {schedule : List Nat} {results : List (Except Misuse (List Design.Module))}
    (hresults : ((pool (context files level)).run schedule).results? = some results) :
    ∃ o v, interleaved (context files level) schedule = some (.ok o) ∧ o.view = .ok v ∧
      separately files level = .ok v := by
  have hlength : results.length = files.length := by
    have htasks := congrArg List.length (Pool.tasks_of_results? hresults)
    rw [Pool.length_run, List.length_map] at htasks
    rw [← htasks]
    simp [pool, size_context]
  -- The results and the views of the files, number by number.
  choose modules views hmodules hviews hshown hsorted using fun n : Fin files.length =>
    view_of_results hresults (List.getElem?_eq_getElem n.isLt)
      (List.getElem?_eq_getElem (Nat.lt_of_lt_of_eq n.isLt hlength.symm))
  have hlists : results.mapM (fun r => r) = .ok (List.ofFn modules) := by
    refine mapM_eq_ok (List.forall₂_iff_get.mpr ⟨by simp [hlength], fun n hn hn' => ?_⟩)
    simpa using hmodules ⟨n, Nat.lt_of_lt_of_eq hn hlength⟩
  have hseparately : files.zipIdx.mapM (fun (text, n) => viewAs level n text) =
      .ok (List.ofFn views) := by
    refine mapM_eq_ok (List.forall₂_iff_get.mpr ⟨by simp, fun n hn hn' => ?_⟩)
    simpa using hviews ⟨n, by simpa using hn⟩
  have hmodulesShown : (List.ofFn modules).flatten.mapM
      (·.shown ((pool (context files level)).run schedule).session.names) =
        .ok ((List.ofFn views).flatMap (·.modules)) := by
    rw [List.flatMap_def]
    refine mapM_flatten_eq_ok (List.forall₂_iff_get.mpr ⟨by simp, fun n hn hn' => ?_⟩)
    simpa using hshown ⟨n, by simpa using hn⟩
  have hdiagnostics : ((pool (context files level)).run schedule).session.log.held.toList.mergeSort
      (inOrder files.length) = (List.ofFn views).flatMap (·.diagnostics) := by
    rw [mergeSort_files (file_lt_of_mem_held schedule), List.flatMap_def, List.flatMap_def]
    refine congrArg List.flatten (List.ext_getElem (by simp) fun n hn hn' => ?_)
    simpa using hsorted ⟨n, by simpa using hn⟩
  refine ⟨outcome (context files level) (List.ofFn modules)
    ((pool (context files level)).run schedule).session, .join (List.ofFn views), ?_, ?_, ?_⟩
  · rw [interleaved, hresults, Option.map_some, hlists]
    rfl
  · simp only [Outcome.view, outcome, hmodulesShown, size_context, hdiagnostics]
    rfl
  · rw [separately, hseparately]
    rfl

/-- Working on the files in order is one of the schedules. -/
theorem exists_schedule_all (ctx : Context) :
    ∃ schedule, interleaved ctx schedule = some (all ctx) := by
  have hfiles : ∀ n ∈ List.range ctx.sources.files.size, ∀ s, True → ∃ modules t,
      (file ctx n).run.run s = (.ok modules, t) ∧ True ∧
        (file ctx n).run.run s = (.ok modules, t) := by
    intro n hn s _
    obtain ⟨modules, t, hrun, -⟩ := fileDone (List.mem_range.mp hn) s
    exact ⟨modules, t, hrun, trivial, hrun⟩
  obtain ⟨lists, t, hrun, -, hsteps⟩ := SessionM.mapM_run (s := {}) hfiles trivial
  have htasks : Steps (fun n s r t => (file ctx n).run.run s = (r, t))
      (List.range ctx.sources.files.size) {} (lists.map .ok) t :=
    hsteps.map fun _ _ _ _ h => h
  obtain ⟨schedule, hschedule⟩ := Pool.run_steps (f := fun n => (file ctx n).run) htasks []
  have hall : (lists.map Except.ok).mapM (fun r => r) = (.ok lists : Except Misuse _) := by
    refine mapM_eq_ok ?_
    rw [List.forall₂_map_left_iff, List.forall₂_same]
    exact fun _ _ => rfl
  refine ⟨schedule, ?_⟩
  have hend : (pool ctx).run schedule = ⟨(lists.map .ok).map .done, t⟩ := hschedule
  rw [interleaved, hend, Pool.results?_done, Option.map_some, hall, all, hrun]

/-- Whatever the schedule, a run shows what the files give one by one, once all tasks are done; and
that happens as soon as each task has had turns enough. Working on the files in order shows the
same. -/
theorem interleaved_separately (files : List (String × String)) (level : NoticeLevel) :
    ∃ v, separately files level = .ok v ∧
      (∀ schedule, interleaved (context files level) schedule = none ∨
        ∃ o, interleaved (context files level) schedule = some (.ok o) ∧ o.view = .ok v) ∧
      (∃ turns : Nat → Nat, ∀ schedule : List Nat,
        (∀ n < files.length, turns n ≤ schedule.count n) →
          (interleaved (context files level) schedule).isSome) ∧
      ∃ o, texts files level = .ok o ∧ o.view = .ok v := by
  obtain ⟨inOrder, hall⟩ := exists_schedule_all (context files level)
  obtain ⟨results, hresults, -⟩ := Option.map_eq_some_iff.mp hall
  obtain ⟨o, v, hinterleaved, hview, hseparately⟩ := view_interleaved hresults
  refine ⟨v, hseparately, fun schedule => ?_, ?_, o, ?_, hview⟩
  · cases hdone : ((pool (context files level)).run schedule).results? with
    | none => exact .inl (by rw [interleaved, hdone, Option.map_none])
    | some results =>
      obtain ⟨o', v', hinterleaved', hview', hseparately'⟩ := view_interleaved hdone
      rw [hseparately] at hseparately'
      exact .inr ⟨o', hinterleaved', hview'.trans hseparately'.symm⟩
  · refine ⟨fun n => (companion files level n).1.turns (companion files level n).2, ?_⟩
    intro schedule hturns
    obtain ⟨results, hdone⟩ := (inStep_pool files level _).finished
      (byTexts_companionPairing files level _) (names_distinct schedule)
      (fun _ _ _ hd => hd.span.file) (Names.Extends.refl _)
      (by simpa [pool, size_context] using hturns)
    rw [interleaved, hdone]
    rfl
  · exact Option.some.inj (hall.symm.trans hinterleaved)

end Run

end Netlist
