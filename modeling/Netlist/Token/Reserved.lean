/-!
The reserved words of the language, grouped by the part they play in a module body. Words are
spelled in lower case; a reserved word is never a name.
-/
namespace Netlist

/-- The kinds of design unit. -/
inductive UnitKind where
  | module
  | interface
  | program
  deriving DecidableEq

/-- The built-in data types. -/
inductive BuiltinType where
  | logic
  | bit
  | reg
  | byte
  | shortint
  | int
  | longint
  | integer
  | time
  | real
  | shortreal
  | realtime
  | string
  deriving DecidableEq

/-- How a data type is signed. -/
inductive Signing where
  | signed
  | unsigned
  deriving DecidableEq

/-- Words that open a block, which a word of `BlockEnd` closes. -/
inductive BlockStart where
  | beginBlock
  | forkBlock
  | caseBlock
  | casex
  | casez
  | generate
  | task
  | function
  | classBlock
  | clocking
  | property
  | sequence
  | covergroup
  | checker
  | specify
  | primitive
  | tableBlock
  | configBlock
  deriving DecidableEq

/-- Words that close a block. -/
inductive BlockEnd where
  | endBlock
  | join
  | joinAny
  | joinNone
  | endcase
  | endgenerate
  | endtask
  | endfunction
  | endclass
  | endclocking
  | endproperty
  | endsequence
  | endgroup
  | endchecker
  | endspecify
  | endprimitive
  | endtable
  | endconfig
  deriving DecidableEq

/-- The reserved words without a role of their own in the grammar. -/
inductive Word where
  | always
  | alwaysComb
  | alwaysFf
  | alwaysLatch
  | initial
  | finalWord
  | assign
  | deassign
  | force
  | release
  | defparam
  | aliasWord
  | bind
  | wire
  | tri
  | wand
  | wor
  | uwire
  | supply0
  | supply1
  | varWord
  | event
  | parameter
  | localparam
  | specparam
  | genvar
  | typedef
  | enum
  | struct
  | union
  | packed
  | constWord
  | staticWord
  | automatic
  | input
  | output
  | inout
  | ref
  | importWord
  | exportWord
  | package
  | endpackage
  | modport
  | letWord
  | andWord
  | orWord
  | nand
  | nor
  | xorWord
  | xnor
  | notWord
  | buf
  | defaultWord
  | ifWord
  | elseWord
  | forWord
  | foreach
  | whileWord
  | doWord
  | forever
  | repeatWord
  | returnWord
  | void
  | virtual
  | externWord
  | pureWord
  | assertWord
  | assumeWord
  | cover
  | posedge
  | negedge
  | edge
  | wait
  | disable
  | unique
  | priorityWord
  | insideWord
  | breakWord
  | continueWord
  deriving DecidableEq

def UnitKind.text : UnitKind → String
  | .module => "module"
  | .interface => "interface"
  | .program => "program"

def UnitKind.all : List UnitKind :=
  [.module, .interface, .program]

def BuiltinType.text : BuiltinType → String
  | .logic => "logic"
  | .bit => "bit"
  | .reg => "reg"
  | .byte => "byte"
  | .shortint => "shortint"
  | .int => "int"
  | .longint => "longint"
  | .integer => "integer"
  | .time => "time"
  | .real => "real"
  | .shortreal => "shortreal"
  | .realtime => "realtime"
  | .string => "string"

def BuiltinType.all : List BuiltinType :=
  [.logic, .bit, .reg, .byte, .shortint, .int, .longint, .integer, .time, .real, .shortreal,
   .realtime, .string]

def Signing.text : Signing → String
  | .signed => "signed"
  | .unsigned => "unsigned"

def Signing.all : List Signing :=
  [.signed, .unsigned]

def BlockStart.text : BlockStart → String
  | .beginBlock => "begin"
  | .forkBlock => "fork"
  | .caseBlock => "case"
  | .casex => "casex"
  | .casez => "casez"
  | .generate => "generate"
  | .task => "task"
  | .function => "function"
  | .classBlock => "class"
  | .clocking => "clocking"
  | .property => "property"
  | .sequence => "sequence"
  | .covergroup => "covergroup"
  | .checker => "checker"
  | .specify => "specify"
  | .primitive => "primitive"
  | .tableBlock => "table"
  | .configBlock => "config"

def BlockStart.all : List BlockStart :=
  [.beginBlock, .forkBlock, .caseBlock, .casex, .casez, .generate, .task, .function,
   .classBlock, .clocking, .property, .sequence, .covergroup, .checker, .specify, .primitive,
   .tableBlock, .configBlock]

def BlockEnd.text : BlockEnd → String
  | .endBlock => "end"
  | .join => "join"
  | .joinAny => "join_any"
  | .joinNone => "join_none"
  | .endcase => "endcase"
  | .endgenerate => "endgenerate"
  | .endtask => "endtask"
  | .endfunction => "endfunction"
  | .endclass => "endclass"
  | .endclocking => "endclocking"
  | .endproperty => "endproperty"
  | .endsequence => "endsequence"
  | .endgroup => "endgroup"
  | .endchecker => "endchecker"
  | .endspecify => "endspecify"
  | .endprimitive => "endprimitive"
  | .endtable => "endtable"
  | .endconfig => "endconfig"

def BlockEnd.all : List BlockEnd :=
  [.endBlock, .join, .joinAny, .joinNone, .endcase, .endgenerate, .endtask, .endfunction,
   .endclass, .endclocking, .endproperty, .endsequence, .endgroup, .endchecker, .endspecify,
   .endprimitive, .endtable, .endconfig]

def Word.text : Word → String
  | .always => "always"
  | .alwaysComb => "always_comb"
  | .alwaysFf => "always_ff"
  | .alwaysLatch => "always_latch"
  | .initial => "initial"
  | .finalWord => "final"
  | .assign => "assign"
  | .deassign => "deassign"
  | .force => "force"
  | .release => "release"
  | .defparam => "defparam"
  | .aliasWord => "alias"
  | .bind => "bind"
  | .wire => "wire"
  | .tri => "tri"
  | .wand => "wand"
  | .wor => "wor"
  | .uwire => "uwire"
  | .supply0 => "supply0"
  | .supply1 => "supply1"
  | .varWord => "var"
  | .event => "event"
  | .parameter => "parameter"
  | .localparam => "localparam"
  | .specparam => "specparam"
  | .genvar => "genvar"
  | .typedef => "typedef"
  | .enum => "enum"
  | .struct => "struct"
  | .union => "union"
  | .packed => "packed"
  | .constWord => "const"
  | .staticWord => "static"
  | .automatic => "automatic"
  | .input => "input"
  | .output => "output"
  | .inout => "inout"
  | .ref => "ref"
  | .importWord => "import"
  | .exportWord => "export"
  | .package => "package"
  | .endpackage => "endpackage"
  | .modport => "modport"
  | .letWord => "let"
  | .andWord => "and"
  | .orWord => "or"
  | .nand => "nand"
  | .nor => "nor"
  | .xorWord => "xor"
  | .xnor => "xnor"
  | .notWord => "not"
  | .buf => "buf"
  | .defaultWord => "default"
  | .ifWord => "if"
  | .elseWord => "else"
  | .forWord => "for"
  | .foreach => "foreach"
  | .whileWord => "while"
  | .doWord => "do"
  | .forever => "forever"
  | .repeatWord => "repeat"
  | .returnWord => "return"
  | .void => "void"
  | .virtual => "virtual"
  | .externWord => "extern"
  | .pureWord => "pure"
  | .assertWord => "assert"
  | .assumeWord => "assume"
  | .cover => "cover"
  | .posedge => "posedge"
  | .negedge => "negedge"
  | .edge => "edge"
  | .wait => "wait"
  | .disable => "disable"
  | .unique => "unique"
  | .priorityWord => "priority"
  | .insideWord => "inside"
  | .breakWord => "break"
  | .continueWord => "continue"

def Word.all : List Word :=
  [.always, .alwaysComb, .alwaysFf, .alwaysLatch, .initial, .finalWord, .assign, .deassign,
   .force, .release, .defparam, .aliasWord, .bind, .wire, .tri, .wand, .wor, .uwire, .supply0,
   .supply1, .varWord, .event, .parameter, .localparam, .specparam, .genvar, .typedef, .enum,
   .struct, .union, .packed, .constWord, .staticWord, .automatic, .input, .output, .inout, .ref,
   .importWord, .exportWord, .package, .endpackage, .modport, .letWord, .andWord, .orWord,
   .nand, .nor, .xorWord, .xnor, .notWord, .buf, .defaultWord, .ifWord, .elseWord, .forWord,
   .foreach, .whileWord, .doWord, .forever, .repeatWord, .returnWord, .void, .virtual,
   .externWord, .pureWord, .assertWord, .assumeWord, .cover, .posedge, .negedge, .edge, .wait,
   .disable, .unique, .priorityWord, .insideWord, .breakWord, .continueWord]

end Netlist
