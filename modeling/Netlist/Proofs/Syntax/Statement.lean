import Netlist.Proofs.Syntax.Written
import Mathlib.Data.Option.Basic

/-!
The grammar of instantiation statements, as a relation between trees and tokens, over that of
expressions. Lists of parameters and of ports are all ordered or all named, and an empty pair of
parentheses is no list with a blank in it.
-/
namespace Netlist.Syntax

section Sentences

variable (W : Writing)

/-- Bounds: `[ expr : expr ]`. -/
inductive Range.Sentence : Range → List Token → Prop
  | mk {range : Range} {opening colon closing : Token} {ms ls : List Token} :
      opening.kind = .leftBracket → range.msb.Sentence W ms → colon.kind = .colon →
      range.lsb.Sentence W ls → closing.kind = .rightBracket →
      Sentence range (opening :: (ms ++ colon :: (ls ++ [closing])))

/-- The word for a signing. -/
inductive IsSigning : Signing × Span → List Token → Prop
  | mk {signing : Signing} {span : Span} {t : Token} : t.kind = .signing signing →
      IsSigning (signing, span) [t]

/-- The word for a type, perhaps with a signing, and its dimensions. -/
inductive DataType.Sentence : DataType → List Token → Prop
  | mk {type : DataType} {t : Token} {ss ps : List Token} : t.kind = .dataType type.kind →
      Optionally IsSigning type.signing ss → Strung (Range.Sentence W) type.packed ps →
      Sentence type (t :: (ss ++ ps))

inductive ParamValue.Sentence : ParamValue → List Token → Prop
  | expr {e : Expr} {ts : List Token} : e.Sentence W ts → Sentence (.expr e) ts
  | dataType {type : DataType} {ts : List Token} : type.Sentence W ts →
      Sentence (.dataType type) ts

/-- A named parameter: `. id ( [value] )`. -/
inductive NamedParam.Sentence : NamedParam → List Token → Prop
  | mk {param : NamedParam} {dot opening closing : Token} {is vs : List Token} :
      dot.kind = .dot → param.name.Written W is → opening.kind = .leftParen →
      Optionally (ParamValue.Sentence W) param.value vs → closing.kind = .rightParen →
      Sentence param (dot :: (is ++ opening :: (vs ++ [closing])))

inductive ParamList.Sentence : ParamList → List Token → Prop
  | ordered {values : List ParamValue} {ts : List Token} :
      Separated (ParamValue.Sentence W) values ts → Sentence (.ordered values) ts
  | named {items : List NamedParam} {ts : List Token} :
      Separated (NamedParam.Sentence W) items ts → Sentence (.named items) ts

/-- Parameters: `# ( [list] )`. -/
inductive ParamClause.Sentence : ParamClause → List Token → Prop
  | mk {clause : ParamClause} {hash opening closing : Token} {ts : List Token} :
      hash.kind = .hash → opening.kind = .leftParen →
      Optionally (ParamList.Sentence W) clause.list ts → closing.kind = .rightParen →
      Sentence clause (hash :: opening :: (ts ++ [closing]))

/-- A dimension of an array of instances: `[ expr : expr ]` or `[ expr ]`. -/
inductive Dimension.Sentence : Dimension → List Token → Prop
  | range {range : Range} {ts : List Token} : range.Sentence W ts → Sentence (.range range) ts
  | size {e : Expr} {span : Span} {opening closing : Token} {ts : List Token} :
      opening.kind = .leftBracket → e.Sentence W ts → closing.kind = .rightBracket →
      Sentence (.size e span) (opening :: (ts ++ [closing]))

inductive InstanceName.Sentence : InstanceName → List Token → Prop
  | mk {name : InstanceName} {is ds : List Token} : name.name.Written W is →
      Strung (Dimension.Sentence W) name.dimensions ds → Sentence name (is ++ ds)

/-- A name, perhaps with a value: `id [ = expr ]`. -/
inductive AttributeSpec.Sentence : AttributeSpec → List Token → Prop
  | bare {spec : AttributeSpec} {is : List Token} : spec.name.Written W is → spec.value = none →
      Sentence spec is
  | valued {spec : AttributeSpec} {e : Expr} {equals : Token} {is ts : List Token} :
      spec.name.Written W is → equals.kind = .equals → spec.value = some e → e.Sentence W ts →
      Sentence spec (is ++ equals :: ts)

/-- An attribute: `(* spec { , spec } *)`. -/
inductive Attribute.Sentence : Attribute → List Token → Prop
  | mk {attr : Attribute} {opening closing : Token} {ts : List Token} :
      opening.kind = .attrOpen → Separated (AttributeSpec.Sentence W) attr.specs ts →
      closing.kind = .attrClose → Sentence attr (opening :: (ts ++ [closing]))

/-- An ordered port: attributes and perhaps an expression. -/
inductive OrderedPort.Sentence : OrderedPort → List Token → Prop
  | mk {port : OrderedPort} {as es : List Token} :
      Strung (Attribute.Sentence W) port.attributes as →
      Optionally (Expr.Sentence W) port.expr es → Sentence port (as ++ es)

/-- What stands behind the dot of a named port: `*`, `id` or `id ( [expr] )`. -/
inductive PortTarget.Sentence : PortTarget → List Token → Prop
  | wildcard {star : Token} : star.kind = .star → Sentence .wildcard [star]
  | bare {name : Identifier} {is : List Token} : name.Written W is → Sentence (.port name none) is
  | connected {name : Identifier} {actual : Option Expr} {opening closing : Token}
      {is es : List Token} : name.Written W is → opening.kind = .leftParen →
      Optionally (Expr.Sentence W) actual es → closing.kind = .rightParen →
      Sentence (.port name actual) (is ++ opening :: (es ++ [closing]))

inductive NamedPort.Sentence : NamedPort → List Token → Prop
  | mk {port : NamedPort} {dot : Token} {as ts : List Token} :
      Strung (Attribute.Sentence W) port.attributes as → dot.kind = .dot →
      port.target.Sentence W ts → Sentence port (as ++ dot :: ts)

inductive PortList.Sentence : PortList → List Token → Prop
  | empty : Sentence (.ordered []) []
  | ordered {ports : List OrderedPort} {ts : List Token} :
      Separated (OrderedPort.Sentence W) ports ts → ts ≠ [] → Sentence (.ordered ports) ts
  | named {ports : List NamedPort} {ts : List Token} :
      Separated (NamedPort.Sentence W) ports ts → Sentence (.named ports) ts

/-- An instance: its name with dimensions, and its ports in parentheses. -/
inductive Instance.Sentence : Instance → List Token → Prop
  | mk {inst : Instance} {opening closing : Token} {ns ps : List Token} :
      inst.name.Sentence W ns → opening.kind = .leftParen → inst.connections.Sentence W ps →
      closing.kind = .rightParen → Sentence inst (ns ++ opening :: (ps ++ [closing]))

/-- A statement: `id [params] instance { , instance } ;`. -/
inductive Instantiation.Sentence : Instantiation → List Token → Prop
  | mk {stmt : Instantiation} {semicolon : Token} {is ps ts : List Token} :
      stmt.module.Written W is → Optionally (ParamClause.Sentence W) stmt.params ps →
      Separated (Instance.Sentence W) stmt.instances ts → semicolon.kind = .semicolon →
      Sentence stmt (is ++ (ps ++ (ts ++ [semicolon])))

end Sentences

section Same

open List (Forall₂)

variable (N : Nat → Nat → Prop) (L : Span → Span → Prop)

structure Range.Same (r r' : Range) : Prop where
  msb : r.msb.Same N L r'.msb
  lsb : r.lsb.Same N L r'.lsb

structure DataType.Same (t t' : DataType) : Prop where
  kind : t.kind = t'.kind
  signing : Option.Rel (fun p p' => p.1 = p'.1) t.signing t'.signing
  packed : Forall₂ (Range.Same N L) t.packed t'.packed

inductive ParamValue.Same : ParamValue → ParamValue → Prop
  | expr {e e' : Expr} : e.Same N L e' → Same (.expr e) (.expr e')
  | dataType {t t' : DataType} : t.Same N L t' → Same (.dataType t) (.dataType t')

structure NamedParam.Same (p p' : NamedParam) : Prop where
  name : N p.name.name p'.name.name
  value : Option.Rel (ParamValue.Same N L) p.value p'.value

inductive ParamList.Same : ParamList → ParamList → Prop
  | ordered {vs vs' : List ParamValue} : Forall₂ (ParamValue.Same N L) vs vs' →
      Same (.ordered vs) (.ordered vs')
  | named {ps ps' : List NamedParam} : Forall₂ (NamedParam.Same N L) ps ps' →
      Same (.named ps) (.named ps')

def ParamClause.Same (p p' : ParamClause) : Prop := Option.Rel (ParamList.Same N L) p.list p'.list

inductive Dimension.Same : Dimension → Dimension → Prop
  | range {r r' : Range} : r.Same N L r' → Same (.range r) (.range r')
  | size {e e' : Expr} {s s' : Span} : e.Same N L e' → Same (.size e s) (.size e' s')

structure InstanceName.Same (n n' : InstanceName) : Prop where
  name : N n.name.name n'.name.name
  dimensions : Forall₂ (Dimension.Same N L) n.dimensions n'.dimensions

structure AttributeSpec.Same (a a' : AttributeSpec) : Prop where
  name : N a.name.name a'.name.name
  value : Option.Rel (Expr.Same N L) a.value a'.value

def Attribute.Same (a a' : Attribute) : Prop := Forall₂ (AttributeSpec.Same N L) a.specs a'.specs

structure OrderedPort.Same (p p' : OrderedPort) : Prop where
  attributes : Forall₂ (Attribute.Same N L) p.attributes p'.attributes
  expr : Option.Rel (Expr.Same N L) p.expr p'.expr

inductive PortTarget.Same : PortTarget → PortTarget → Prop
  | wildcard : Same .wildcard .wildcard
  | port {i i' : Identifier} {e e' : Option Expr} : N i.name i'.name →
      Option.Rel (Expr.Same N L) e e' → Same (.port i e) (.port i' e')

structure NamedPort.Same (p p' : NamedPort) : Prop where
  attributes : Forall₂ (Attribute.Same N L) p.attributes p'.attributes
  target : p.target.Same N L p'.target

inductive PortList.Same : PortList → PortList → Prop
  | ordered {ps ps' : List OrderedPort} : Forall₂ (OrderedPort.Same N L) ps ps' →
      Same (.ordered ps) (.ordered ps')
  | named {ps ps' : List NamedPort} : Forall₂ (NamedPort.Same N L) ps ps' →
      Same (.named ps) (.named ps')

structure Instance.Same (i i' : Instance) : Prop where
  name : i.name.Same N L i'.name
  connections : i.connections.Same N L i'.connections

structure Instantiation.Same (s s' : Instantiation) : Prop where
  module : N s.module.name s'.module.name
  params : Option.Rel (ParamClause.Same N L) s.params s'.params
  instances : Forall₂ (Instance.Same N L) s.instances s'.instances

end Same

end Netlist.Syntax
