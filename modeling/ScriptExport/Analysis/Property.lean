import ScriptExport.Analysis.State

/-!
# Properties from accessors

Which members of a class form properties. A method that is annotated as a property starts one; the
opposite accessor is the first member that has its partner's name, the opposite role and the same
staticness, and it joins the property whether or not it is annotated itself. A property stands at the
place of its first accessor. An access that the directive states counts, whatever accessors there are.
-/

namespace ScriptExport.Analysis

/-- What the annotations of a member mean for it. -/
structure MemberMark where
  directive : Option Directive := none
  /-- Marked to be left out, without a valid directive. -/
  ignored : Bool := false
  /-- Marked, but with a directive that is unknown or does not apply. -/
  rejected : Bool := false
deriving DecidableEq

/-- Whether the member is left out, even by a class that exports its members by itself. -/
def MemberMark.isExcluded (m : MemberMark) : Bool :=
  m.ignored || m.rejected

/-- A member with its mark. -/
structure Member where
  decl : Decl
  mark : MemberMark := {}

/-- A method seen as an accessor. -/
structure Accessor where
  role : Naming.Role
  /-- The name of the property. -/
  logicalName : String
  /-- The names that the opposite accessor may have. -/
  partners : List String
deriving DecidableEq, Repr

/-- The role of a method by its signature: a value and no parameter, or one parameter. -/
def Accessor.roleOf? (c : Callable) : Option Naming.Role :=
  match c.params with
  | [] => if c.returnType.isVoid then none else some .getter
  | [_] => some .setter
  | _ => none

/-- The names of the opposite accessors of an accessor with a head in its name. -/
def Accessor.partnersOf (role : Naming.Role) (name : String) : List String :=
  let cs := name.toList
  let rest := String.ofList (cs.drop (if Text.startsWith "is" name then 2 else 3))
  match role with
  | .getter => ["set" ++ rest]
  | .setter => ["get" ++ rest, "is" ++ rest]

/-- A method as an accessor. `getLevel`, `isAlive` and `setLevel` have their role in their name, which
must agree with the signature; `level()` and `level(x)` have it by their signature alone and are each
other's partners. -/
def Accessor.of? (name : String) (c : Callable) : Option Accessor := do
  let role ← roleOf? c
  match Naming.accessor? name with
  | some (named, logicalName) =>
    if named = role then some ⟨role, logicalName, partnersOf role name⟩ else none
  | none => some ⟨role, name, [name]⟩

/-- The type that an accessor reads or writes. -/
def accessorType (c : Callable) : TypeRef :=
  match c.params with
  | [] => c.returnType
  | p :: _ => p.type

/-- A method taken up by a property. -/
structure AccessorMethod where
  name : String
  type : TypeRef

/-- A property made of accessors. -/
structure PropertySpec where
  name : String
  /-- The header of the first accessor. -/
  header : Header
  directive : Directive
  getter : Option AccessorMethod := none
  setter : Option AccessorMethod := none
  access : AccessMode
  isStatic : Bool

/-- What a member of a list turns into. -/
inductive Slot where
  /-- A member of its own. -/
  | member
  /-- Part of a property that stands elsewhere in the list. -/
  | absorbed
  | property (spec : PropertySpec)

/-- Whether the member is still one of its own. -/
def Slot.isMember : Slot → Bool
  | member => true
  | _ => false

/-- The properties planned so far, with one slot for each member. -/
structure PropertyPlan where
  slots : List Slot
  /-- The names of the properties formed so far. -/
  formed : List String := []
  /-- Members that a property refused as a partner; they start no property. -/
  unpaired : List Nat := []
  diagnostics : List Diagnostic := []

/-- The access that follows from the accessors that are there. -/
def accessorAccess (hasGetter hasSetter : Bool) : AccessMode :=
  match hasGetter, hasSetter with
  | true, true => .readWrite
  | true, false => .readOnly
  | _, _ => .writeOnly

/-- Whether a member can be the opposite accessor of a method with staticness `isStatic`. -/
def Member.isPartner (m : Member) (isStatic : Bool) (a : Accessor) : Bool :=
  match m.decl with
  | .method h c =>
    !m.mark.isExcluded && a.partners.contains h.name && (h.access.isPublic || m.mark.directive.isSome)
      && !c.isDeleted && c.isStatic == isStatic
      && (Accessor.of? h.name c).any (fun other => other.role ≠ a.role)
  | _ => false

namespace PropertyPlan

/-- The plan that has no properties. -/
def initial (members : List Member) : PropertyPlan :=
  { slots := members.map fun _ => .member }

/-- Whether the member at a place has not been taken up. -/
def isFree (p : PropertyPlan) (i : Nat) : Bool :=
  (p.slots.getD i .member).isMember

/-- The place and callable of the first free partner of the accessor at place `i`. -/
def partner? (p : PropertyPlan) (members : List Member) (i : Nat) (isStatic : Bool) (a : Accessor) :
    Option (Nat × Header × Callable) :=
  members.zipIdx.findSome? fun (m, j) =>
    if j ≠ i && p.isFree j && m.isPartner isStatic a then
      match m.decl with
      | .method h c => some (j, h, c)
      | _ => none
    else none

/-- Put a property at its first place `first`, with its other accessor, if any, absorbed. -/
def place (p : PropertyPlan) (first : Nat) (other : Option Nat) (spec : PropertySpec) :
    PropertyPlan :=
  let slots := match other with
    | some j => p.slots.set j .absorbed
    | none => p.slots
  { p with slots := slots.set first (.property spec) }

/-- The property that an accessor forms by itself. -/
def single (h : Header) (c : Callable) (directive : Directive) (a : Accessor) : PropertySpec :=
  let method : AccessorMethod := ⟨h.name, accessorType c⟩
  { name := a.logicalName
    header := h
    directive
    getter := if a.role = .getter then some method else none
    setter := if a.role = .setter then some method else none
    access := directive.access?.getD (accessorAccess (a.role = .getter) (a.role = .setter))
    isStatic := c.isStatic }

/-- Take the property that the method at place `i` starts into the plan. -/
def form (owner : String) (members : List Member) (p : PropertyPlan) (i : Nat) (h : Header)
    (c : Callable) (directive : Directive) (a : Accessor) : PropertyPlan :=
  let p' := { p with formed := a.logicalName :: p.formed }
  let alone := single h c directive a
  match p.partner? members i c.isStatic a with
  | none => p'.place i none alone
  | some (j, other, otherCallable) =>
    let mine : AccessorMethod := ⟨h.name, accessorType c⟩
    let others : AccessorMethod := ⟨other.name, accessorType otherCallable⟩
    let (getter, setter) := if a.role = .getter then (mine, others) else (others, mine)
    let read := getter.type.canonical.text
    let written := setter.type.canonical.text
    if read = written then
      let (first, last) := if i < j then (i, j) else (j, i)
      p'.place first (some last)
        { alone with
          header := if i < j then h else other
          getter := some getter
          setter := some setter
          access := directive.access?.getD .readWrite }
    else
      let problem : Diagnostic :=
        { kind := .propertyMismatch
          message := "'" ++ getter.name ++ "' returns " ++ read ++ " but '" ++ setter.name ++ "' takes "
            ++ written ++ ", property '" ++ a.logicalName ++ "' of " ++ owner ++ " is not paired"
          location := h.location }
      { p' with unpaired := j :: p'.unpaired, diagnostics := p'.diagnostics ++ [problem] }.place i none
        alone

/-- Look at the member at place `i`. -/
def take (owner : String) (members : List Member) (p : PropertyPlan) (m : Member) (i : Nat) :
    PropertyPlan :=
  if m.mark.isExcluded || !p.isFree i || p.unpaired.contains i then p
  else match m.decl, m.mark.directive with
    | .method h c, some directive =>
      if directive.kind = .property then
        match Accessor.of? h.name c with
        | none =>
          { p with diagnostics := p.diagnostics ++ [
              { kind := .malformedAttribute
                message := "'" ++ h.name
                  ++ "' is annotated as a property but is neither a getter nor a setter"
                location := h.location }] }
        | some a =>
          if a.logicalName ∈ p.formed then
            { p with
              slots := p.slots.set i .absorbed
              diagnostics := p.diagnostics ++ [
                { kind := .duplicateMember
                  message := "property '" ++ a.logicalName ++ "' of " ++ owner
                    ++ " is declared more than once, '" ++ h.name ++ "' dropped"
                  location := h.location }] }
          else p.form owner members i h c directive a
      else p
    | _, _ => p

end PropertyPlan

/-- Decide which members form properties. -/
def planProperties (owner : String) (members : List Member) : PropertyPlan :=
  members.zipIdx.foldl (fun p (m, i) => p.take owner members m i) (.initial members)

/-- The type of a property: what its getter reads, or else what its setter writes. -/
def PropertySpec.type? (spec : PropertySpec) : Option TypeRef :=
  (spec.getter.or spec.setter).map (·.type)

/-- The record of a property. An accessor that the access leaves out is not shown. -/
def Context.propertyRecord (ctx : Context) (spec : PropertySpec) : ExportRecord :=
  { ctx.record .property spec.header spec.name (some spec.directive) with
    getter := if spec.access.isReadable then spec.getter.map (·.name) else none
    setter := if spec.access.isWritable then spec.setter.map (·.name) else none
    valueType := spec.type?.map (·.canonical.text)
    access := spec.access
    isStatic := spec.isStatic }

end ScriptExport.Analysis
