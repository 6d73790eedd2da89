import ScriptExport.Source.Location
import ScriptExport.Source.TypeRef

/-!
# Declarations

The declaration tree of an analyzed file. The kinds of declarations form a closed set; namespaces and
records hold further declarations, and methods, constructors, destructors and fields occur as members
of records only (`Analysis.Structure` checks that).
-/

namespace ScriptExport

/-- The access level of a member or base. -/
inductive Access where
  | pub
  | prot
  | priv
deriving DecidableEq, Repr, Inhabited

namespace Access

/-- The name written in tree dumps. -/
def name : Access → String
  | pub => "public"
  | prot => "protected"
  | priv => "private"

/-- All levels. -/
def all : List Access := [pub, prot, priv]

/-- The level with the given name. -/
def ofName? (s : String) : Option Access :=
  all.find? (fun a => a.name == s)

/-- Whether scripts can see what has this access. -/
def isPublic (a : Access) : Bool :=
  a == pub

end Access

/-- A parameter; its name may be empty. -/
structure Param where
  name : String := ""
  type : TypeRef
deriving Repr, Inhabited

/-- The signature and modifiers of a callable declaration. -/
structure Callable where
  returnType : TypeRef := .void
  params : List Param := []
  isStatic : Bool := false
  isConst : Bool := false
  isVirtual : Bool := false
  isPure : Bool := false
  isDeleted : Bool := false
deriving Repr, Inhabited

/-- An entry of a record's base list. -/
structure Base where
  name : String
  access : Access := .pub
  isVirtual : Bool := false
deriving DecidableEq, Repr, Inhabited

/-- An enumerator with its initializer as it was written. -/
structure EnumConstant where
  name : String
  init : Option String := none
deriving DecidableEq, Repr, Inhabited

/-- What every declaration has. -/
structure Header where
  name : String := ""
  location : Option Location := none
  annotations : List String := []
  access : Access := .pub
  /-- Generated by the compiler. -/
  implicit : Bool := false
deriving DecidableEq, Repr, Inhabited

/-- A data member. -/
structure Field where
  type : TypeRef
  isStatic : Bool := false
  isConst : Bool := false
  init : Option String := none
deriving Repr, Inhabited

/-- A variable outside of a record. -/
structure Variable where
  type : TypeRef
  isConst : Bool := false
  init : Option String := none
deriving Repr, Inhabited

/-- The enumerators of an enum. -/
structure Enumeration where
  enumerators : List EnumConstant := []
  isScoped : Bool := false
deriving DecidableEq, Repr, Inhabited

/-- What a record says beside its members. -/
structure RecordTraits where
  bases : List Base := []
  isAbstract : Bool := false
  /-- An instantiated template specialization. -/
  isSpecialization : Bool := false
deriving DecidableEq, Repr, Inhabited

/-- A declaration. -/
inductive Decl where
  | nameSpace (header : Header) (decls : List Decl)
  | record (header : Header) (traits : RecordTraits) (members : List Decl)
  | method (header : Header) (callable : Callable)
  | constructor (header : Header) (callable : Callable)
  | destructor (header : Header)
  | function (header : Header) (callable : Callable)
  | field (header : Header) (info : Field)
  | var (header : Header) (info : Variable)
  | enumeration (header : Header) (info : Enumeration)
  | typeAlias (header : Header) (target : TypeRef)
deriving Repr, Inhabited

namespace Decl

/-- What the declaration has in common with all others. -/
def header : Decl → Header
  | nameSpace h _ | record h _ _ | method h _ | constructor h _ | destructor h | function h _
  | field h _ | var h _ | enumeration h _ | typeAlias h _ => h

/-- The simple name. -/
def name (d : Decl) : String := d.header.name

/-- Where the declaration was written. -/
def location (d : Decl) : Option Location := d.header.location

/-- The annotation texts. -/
def annotations (d : Decl) : List String := d.header.annotations

/-- The kind of declaration in words. -/
def kindText : Decl → String
  | nameSpace .. => "namespace"
  | record .. => "record"
  | method .. => "method"
  | constructor .. => "constructor"
  | destructor .. => "destructor"
  | function .. => "function"
  | field .. => "field"
  | var .. => "variable"
  | enumeration .. => "enum"
  | typeAlias .. => "type alias"

/-- Whether the declaration makes sense as a member of a record only. -/
def isMemberOnly : Decl → Bool
  | method .. | constructor .. | destructor .. | field .. => true
  | _ => false

/-- The declarations inside a namespace or record. -/
def children : Decl → List Decl
  | nameSpace _ decls => decls
  | record _ _ members => members
  | _ => []

/-- The base list of a record. -/
def bases : Decl → List Base
  | record _ traits _ => traits.bases
  | _ => []

/-- Induction over declarations in order, with what is inside each of them. -/
@[elab_as_elim]
theorem list_induction {motive : List Decl → Prop} (nil : motive [])
    (cons : ∀ d ds, motive d.children → motive ds → motive (d :: ds)) (ds : List Decl) :
    motive ds :=
  @Decl.rec_1 (fun d => motive d.children) motive (fun _ _ ih => ih) (fun _ _ _ ih => ih)
    (fun _ _ => nil) (fun _ _ => nil) (fun _ => nil) (fun _ _ => nil) (fun _ _ => nil)
    (fun _ _ => nil) (fun _ _ => nil) (fun _ _ => nil) nil cons ds

end Decl

/-- Everything that the front end reports about one analyzed file. -/
structure TranslationUnit where
  filePath : String
  decls : List Decl := []
deriving Repr, Inhabited

/-- The name of a declaration in messages and scope paths that cannot be empty. -/
def anonymousName : String := "(anonymous)"

/-- The name in a message; a blank name is shown as `(anonymous)`. -/
def displayName (name : String) : String :=
  if Text.isBlankText name then anonymousName else name

end ScriptExport
