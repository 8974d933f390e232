import Netlist.Proofs.Lowering.Expression

/-!
Statements, units and files that are alike are lowered alike. A statement gives an instance for each
of its names if none of its numbers is bare; in a unit a fault is reported, and nothing fails.
-/
namespace Netlist.Lowering

open List (Forall₂)

variable {F : Frame} {P : Pairing} {N : Nat → Nat → Prop} {ctx ctx' : Context}

section Values

variable (hL : Lowers F P N ctx ctx')

include hL

theorem agree_range {r r' : Syntax.Range} (h : r.Alike F r') :
    LowerM.Agree F P (AllReadable ctx r.numbers) (Design.Expr.Alike N) (range ctx r)
      (range ctx' r') := by
  simp only [Syntax.Range.numbers, allReadable_append]
  refine .bind (agree_expression hL _ h.msb) fun _ _ hmsb => ?_
  exact .map (agree_expression hL _ h.lsb) fun _ _ hlsb => .binary hmsb hlsb

theorem agree_packed {rs rs' : List Syntax.Range} (h : Forall₂ (Syntax.Range.Alike F) rs rs')
    {base base' : Design.Expr} (hbase : base.Alike N base') :
    LowerM.Agree F P (AllReadable ctx (rs.flatMap Syntax.Range.numbers)) (Design.Expr.Alike N)
      (packed ctx base rs) (packed ctx' base' rs') := by
  induction h generalizing base base' with
  | nil => exact .pure allReadable_nil hbase
  | cons hr hrs ih =>
    simp only [List.flatMap_cons, allReadable_append]
    exact .bind (agree_range hL hr) fun _ _ hbounds => ih (.binary hbase hbounds)

theorem agree_dataType {t t' : Syntax.DataType} (h : t.Alike F t') :
    LowerM.Agree F P (AllReadable ctx (t.packed.flatMap Syntax.Range.numbers))
      (Design.Expr.Alike N) (dataType ctx t) (dataType ctx' t') := by
  have hkeyword : LowerM.Agree F P (AllReadable ctx (t.packed.flatMap Syntax.Range.numbers))
      (Design.Expr.Alike N)
      (do let keyword ← intern t.kind.text; packed ctx (.id keyword) t.packed)
      (do let keyword ← intern t'.kind.text; packed ctx' (.id keyword) t'.packed) := by
    rw [h.kind]
    exact .bindLift (agree_intern hL _) fun _ _ hij => agree_packed hL h.packed (.id hij)
  have hsigning := h.signing
  unfold dataType
  generalize t.signing = signing, t'.signing = signing' at hsigning
  cases hsigning with
  | none => exact hkeyword
  | some hspan => exact .bindLift (agree_notice hL _ hspan.2) fun _ _ _ => hkeyword

theorem agree_paramValue {v v' : Syntax.ParamValue} (h : v.Alike F v') :
    LowerM.Agree F P (AllReadable ctx v.numbers) (Design.Expr.Alike N) (paramValue ctx v)
      (paramValue ctx' v') := by
  cases h with
  | expr he => exact agree_expression hL _ he
  | dataType ht => exact agree_dataType hL ht

theorem agree_dimension {d d' : Syntax.Dimension} (h : d.Alike F d') :
    LowerM.Agree F P (AllReadable ctx d.numbers) (Design.Expr.Alike N) (dimension ctx d)
      (dimension ctx' d') := by
  cases h with
  | range hr => exact agree_range hL hr
  | size he _ => exact agree_expression hL _ he

theorem agree_dimensions {ds ds' : List Syntax.Dimension}
    (h : Forall₂ (Syntax.Dimension.Alike F) ds ds') {base base' : Design.Expr}
    (hbase : base.Alike N base') :
    LowerM.Agree F P (AllReadable ctx (ds.flatMap Syntax.Dimension.numbers))
      (Design.Expr.Alike N) (dimensions ctx base ds) (dimensions ctx' base' ds') := by
  induction h generalizing base base' with
  | nil => exact .pure allReadable_nil hbase
  | cons hd hds ih =>
    simp only [List.flatMap_cons, allReadable_append]
    exact .bind (agree_dimension hL hd) fun _ _ hbounds => ih (.binary hbase hbounds)

omit hL in
theorem agree_optional {α β : Type} {R : α → β → Prop} {numbers : α → List Span}
    {lower : α → LowerM Design.Expr} {lower' : β → LowerM Design.Expr}
    (h : ∀ a b, R a b → LowerM.Agree F P (AllReadable ctx (numbers a)) (Design.Expr.Alike N)
      (lower a) (lower' b))
    {o : Option α} {o' : Option β} (ho : Option.Rel R o o') :
    LowerM.Agree F P (AllReadable ctx (o.toList.flatMap numbers)) (Design.Expr.Alike N)
      (optional lower o) (optional lower' o') := by
  cases ho with
  | none => exact .pure allReadable_nil .null
  | some hab =>
    simp only [Option.toList_some, List.flatMap_singleton]
    exact h _ _ hab

theorem agree_namedParam {p p' : Syntax.NamedParam} (h : p.Alike F p') :
    LowerM.Agree F P (AllReadable ctx p.numbers) (Design.Expr.Alike N) (namedParam ctx p)
      (namedParam ctx' p') := by
  refine .bindLift (agree_identifier hL h.name) fun _ _ hkey => ?_
  exact .map (agree_optional (fun _ _ hv => agree_paramValue hL hv) h.value) fun _ _ hvalue =>
    .binary hkey hvalue

theorem agree_paramList {l l' : Syntax.ParamList} (h : l.Alike F l') :
    LowerM.Agree F P (AllReadable ctx l.numbers) (Forall₂ (Design.Expr.Alike N))
      (paramList ctx l) (paramList ctx' l') := by
  cases h with
  | ordered hvs =>
    simp only [Syntax.ParamList.numbers, allReadable_flatMap]
    exact .mono (.mapM hvs fun _ _ hv => agree_paramValue hL hv) fun _ _ h => h.1
  | named hps =>
    simp only [Syntax.ParamList.numbers, allReadable_flatMap]
    exact .mono (.mapM hps fun _ _ hp => agree_namedParam hL hp) fun _ _ h => h.1

theorem agree_attributes (form : String) {as as' : List Syntax.Attribute}
    (h : Forall₂ (Syntax.Attribute.Alike F) as as') :
    SessionM.Agree P (fun _ _ => True) (attributes ctx form as) (attributes ctx' form as') := by
  induction h with
  | nil => exact .pure trivial
  | cons ha has ih => exact .bind (agree_notice hL _ ha.span) fun _ _ _ => ih

theorem agree_orderedPort {p p' : Syntax.OrderedPort} (h : p.Alike F p') :
    LowerM.Agree F P (AllReadable ctx p.numbers) (Design.Expr.Alike N) (orderedPort ctx p)
      (orderedPort ctx' p') := by
  refine .bindLift (agree_attributes hL _ h.attributes) fun _ _ _ => ?_
  exact agree_optional (fun _ _ he => agree_expression hL _ he) h.expr

theorem agree_namedPort {p p' : Syntax.NamedPort} (h : p.Alike F p') :
    LowerM.Agree F P (AllReadable ctx p.numbers) (Design.Expr.Alike N) (namedPort ctx p)
      (namedPort ctx' p') := by
  have htarget := h.target
  refine .bindLift (agree_attributes hL _ h.attributes) fun _ _ _ => ?_
  unfold Syntax.NamedPort.numbers
  generalize p.target = target, p'.target = target' at htarget
  cases htarget with
  | wildcard => exact .pure allReadable_nil (.binary .all .null)
  | port hname hactual =>
    refine .bindLift (agree_identifier hL hname) fun _ _ hkey => ?_
    exact .map (agree_optional (fun _ _ he => agree_expression hL _ he) hactual) fun _ _ hvalue =>
      .binary hkey hvalue

theorem agree_portList {l l' : Syntax.PortList} (h : l.Alike F l') :
    LowerM.Agree F P (AllReadable ctx l.numbers) (Forall₂ (Design.Expr.Alike N))
      (portList ctx l) (portList ctx' l') := by
  cases h with
  | ordered hps =>
    simp only [Syntax.PortList.numbers, allReadable_flatMap]
    exact .mono (.mapM hps fun _ _ hp => agree_orderedPort hL hp) fun _ _ h => h.1
  | named hps =>
    simp only [Syntax.PortList.numbers, allReadable_flatMap]
    exact .mono (.mapM hps fun _ _ hp => agree_namedPort hL hp) fun _ _ h => h.1

theorem agree_generics {p p' : Option Syntax.ParamClause}
    (h : Option.Rel (Syntax.ParamClause.Alike F) p p') :
    LowerM.Agree F P (AllReadable ctx (p.toList.flatMap Syntax.ParamClause.numbers))
      (Forall₂ (Design.Expr.Alike N)) (generics ctx p) (generics ctx' p') := by
  cases h with
  | none => exact .pure allReadable_nil .nil
  | @some p p' hp =>
    obtain ⟨list, span⟩ := p
    obtain ⟨list', span'⟩ := p'
    have hlist : Option.Rel (Syntax.ParamList.Alike F) list list' := hp.list
    cases hlist with
    | none => exact .pure (by simp [Syntax.ParamClause.numbers]) .nil
    | some hl =>
      simp only [Syntax.ParamClause.numbers, Option.toList_some, List.flatMap_singleton]
      exact agree_paramList hL hl

theorem agree_hierarchicalInstance {module module' : Syntax.Identifier}
    (hmodule : module.Alike F module') {gs gs' : List Design.Expr}
    (hgs : Forall₂ (Design.Expr.Alike N) gs gs') {i i' : Syntax.Instance} (h : i.Alike F i') :
    LowerM.Agree F P (AllReadable ctx i.numbers) (Design.Instance.Alike N F.span)
      (hierarchicalInstance ctx module gs i) (hierarchicalInstance ctx' module' gs' i') := by
  simp only [Syntax.Instance.numbers, allReadable_append]
  refine .bind (agree_portList hL h.connections) fun _ _ hports => ?_
  refine .bindLift (agree_identifier hL h.name.name) fun _ _ hbase => ?_
  refine .bindLast (agree_dimensions hL h.name.dimensions hbase) fun _ _ hname => ?_
  refine .bindLift (agree_identifier hL hmodule) fun _ _ hmoduleName => ?_
  exact .pure trivial ⟨hname, hmoduleName, hgs, hports, h.span⟩

/-- The condition for a statement to give instances: none of its numbers is bare. -/
theorem agree_instantiation {s s' : Syntax.Instantiation} (h : s.Alike F s') :
    LowerM.Agree F P (AllReadable ctx s.numbers)
      (fun is is' => Forall₂ (Design.Instance.Alike N F.span) is is' ∧
        is.length = s.instances.length)
      (instantiation ctx s) (instantiation ctx' s') := by
  have hnonempty : s.instances.isEmpty = false := by simpa using h.nonempty
  have hnonempty' : s'.instances.isEmpty = false := by
    have hne := h.nonempty
    have hinstances := h.instances
    generalize s.instances = is, s'.instances = is' at hinstances hne ⊢
    cases hinstances with
    | nil => exact absurd rfl hne
    | cons _ _ => rfl
  unfold instantiation
  simp only [hnonempty, hnonempty', Syntax.Instantiation.numbers, allReadable_append,
    allReadable_flatMap (f := Syntax.Instance.numbers)]
  refine .bind (agree_generics hL h.params) fun gs gs' hgs => ?_
  exact .mapM h.instances fun _ _ hi => agree_hierarchicalInstance hL h.module hgs hi

theorem agree_item {i i' : Syntax.Item} (h : i.Alike F i') :
    LowerM.Agree F P (AllReadable ctx i.numbers)
      (fun is is' => Forall₂ (Design.Instance.Alike N F.span) is is' ∧
        is.length = i.instances.length)
      (item ctx i) (item ctx' i') := by
  cases h with
  | instantiation hs => exact agree_instantiation hL hs
  | skipped hleaf _ hs =>
    refine .bindLift (agree_snippet hL hleaf) fun text text' htext => ?_
    rw [htext.1, htext.2]
    exact .bindLift (agree_notice hL _ hs) fun _ _ _ => .pure allReadable_nil ⟨.nil, rfl⟩
  | error hbroken hs => exact .fail (fun _ => hbroken) (.malformed hs)

end Values

section Units

variable (hL : Lowers F P N ctx ctx')
  (hfault : ∀ f f' : Fault, f.Alike F f' → P.diag f.diagnostic f'.diagnostic)

include hfault

omit hL in
theorem agree_reportingFaults {W : Prop} {x y : LowerM (List Design.Instance)}
    (h : LowerM.Agree F P W (Forall₂ (Design.Instance.Alike N F.span)) x y) :
    SessionM.Agree P (Forall₂ (Design.Instance.Alike N F.span)) (reportingFaults x)
      (reportingFaults y) := by
  refine .bind h ?_
  rintro _ _ (⟨-, his⟩ | ⟨-, hf⟩)
  · exact .pure his
  · refine .bind (Q := fun _ _ => True) (.lift (.emit (hfault _ _ hf) fun _ => trivial)) ?_
    exact fun _ _ _ => .pure .nil

include hL

theorem agree_designUnit {u u' : Syntax.DesignUnit} (h : u.Alike F u') :
    SessionM.Agree P (Design.Module.Alike N F.span) (designUnit ctx u) (designUnit ctx' u') := by
  have hitem (i i' : Syntax.Item) (hi : i.Alike F i') :
      SessionM.Agree P (Forall₂ (Design.Instance.Alike N F.span))
        (reportingFaults (item ctx i)) (reportingFaults (item ctx' i')) :=
    agree_reportingFaults hfault (.mono (agree_item hL hi) fun _ _ his => his.1)
  refine .bind (.mapM h.items hitem) fun is is' his => ?_
  refine .bind (agree_identifier hL h.name) fun name name' hname => ?_
  exact .pure ⟨hname, List.rel_flatten his, h.span⟩

/-- Files that are alike give modules that are alike. -/
theorem agree_sourceText {t t' : Syntax.SourceText} (h : t.Alike F t') :
    SessionM.Agree P (Forall₂ (Design.Module.Alike N F.span)) (sourceText ctx t)
      (sourceText ctx' t') :=
  .mapM h.units fun _ _ hu => agree_designUnit hL hfault hu

end Units

end Netlist.Lowering
