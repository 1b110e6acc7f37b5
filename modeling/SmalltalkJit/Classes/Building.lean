import SmalltalkJit.Classes.ClassTable

/-! # Class definitions, redefinitions and extensions

`buildClassIn` for the definitions of one namespace: the superclass is resolved,
a class and a metaclass are allocated, pragmas and variables give the shape, the
methods are compiled into fresh dictionaries, and the class is bound or copied
over the class that already has the name. `extendClass` collects and compiles
the methods first and then stores two merged dictionaries. No result is a failed
assertion or the use of an object that is not a class as one.
-/
namespace SmalltalkJit.Classes
open OpenAddressing

inductive CompileError (Sym E : Type)
  | undefinedVariable (name : Sym)
  | redefinition (selector : Sym)
  | invalidPragma
  | body (e : E)
  deriving DecidableEq

inductive ShapeArgument (Sym : Type)
  | variable (name : Sym)
  | integer (word : UInt64)
  | other

inductive Pragma (Sym : Type)
  | shape (arg : ShapeArgument Sym)
  | other

/-- No superclass name is the name nil. -/
structure ClassNode (Sym : Type) where
  name : Sym
  superName : Option Sym
  pragmas : List (Pragma Sym)
  vars : List Sym
  methods : List (MethodNode Sym)

inductive Node (Sym : Type)
  | definition (node : ClassNode Sym)
  | extension (name : Sym) (methods : List (MethodNode Sym))

/-- What stays fixed while classes are built: the well known objects, which names are class
variables, and the analysis of a method body, which finds an error or the number of literals. -/
structure Context {Sym : Type} [DecidableEq Sym] (hash : Sym → ℕ) (E : Type) where
  handles : Handles
  isClassVar : Sym → Bool
  analyze : ClassTable hash → Oop → MethodNode Sym → Except E ℕ

section Building
variable {Sym E : Type} [DecidableEq Sym] {hash : Sym → ℕ}

structure Super (hash : Sym → ℕ) where
  metaClass : Oop
  metaRecord : RawClass hash
  superClass : Oop
  record : RawClass hash
  isRoot : Bool

variable (ctx : Context hash E)

def resolveSuperClass (t : ClassTable hash) (node : ClassNode Sym) :
    Option (Except (CompileError Sym E) (Super hash)) :=
  match node.superName with
  | none =>
    (t.classAt ctx.handles.classClass).bind fun metaRecord =>
      (t.classAt ctx.handles.undefinedObject).map fun record =>
        .ok ⟨ctx.handles.classClass,metaRecord,ctx.handles.undefinedObject,record,true⟩
  | some name =>
    match t.resolve name with
    | none => some (.error (.undefinedVariable name))
    | some (.immediate _) => none
    | some (.pointer o) =>
      if o = ctx.handles.nil then some (.error (.undefinedVariable name))
      else (t.classAt o).bind fun record =>
        (t.classAt record.cls).map fun metaRecord => .ok ⟨record.cls,metaRecord,o,record,false⟩

def processShapePragma (t : ClassTable hash) : ShapeArgument Sym → Except (CompileError Sym E) InstanceShape
  | .variable name =>
    match t.resolve name with
    | some value => .ok (.ofWord value.word)
    | none => .error .invalidPragma
  | .integer word => .ok (.ofWord word)
  | .other => .error .invalidPragma

def processPragmas (t : ClassTable hash) :
    List (Pragma Sym) → InstanceShape → Except (CompileError Sym E) InstanceShape
  | [], shape => .ok shape
  | .shape arg :: rest, _ =>
    match processShapePragma t arg with
    | .ok shape => processPragmas t rest shape
    | .error e => .error e
  | .other :: rest, shape => processPragmas t rest shape

def declareVariables (vars superInstVars : List Sym) : List Sym :=
  superInstVars ++ vars.filter fun name => !ctx.isClassVar name

/-- `analyzeInstanceVars` enters the names in order, so that the last of two equal ones stays. -/
def instVarIndex : List Sym → Sym → Option ℕ
  | [], _ => none
  | v :: rest, name =>
    match instVarIndex rest name with
    | some i => some (i+1)
    | none => if v = name then some 0 else none

def compileInstVars (instVars mentions : List Sym) : List (ℕ × Sym) :=
  mentions.filterMap fun name => (instVarIndex instVars name).map (·,name)

/-- More than 65535 literals end the virtual machine. -/
def compileMethodIn (t : ClassTable hash) (owner : Oop)
    (node : MethodNode Sym) : Option (Except (CompileError Sym E) (CompiledMethod Sym)) :=
  match ctx.analyze t owner node with
  | .error e => some (.error (.body e))
  | .ok literals =>
    if literals > 65535 then none
    else (t.classAt owner).map fun k => .ok ⟨node,owner,compileInstVars k.instanceVariables node.mentions⟩

def compileAndInstallMethod (t : ClassTable hash) (owner : Oop)
    (methodDict : MethodDictionary hash) (node : MethodNode Sym) :
    Option (Except (CompileError Sym E) (MethodDictionary hash)) :=
  if (methodDict.at? node.selector).isSome then some (.error (.redefinition node.selector))
  else (compileMethodIn ctx t owner node).map fun
    | .error e => .error e
    | .ok method => .ok (methodDict.atPut method.node.selector method)

def isDefined (live : Option (MethodDictionary hash)) (selector : Sym) : Bool :=
  live.elim false fun d => (d.at? selector).isSome

/-- The loop of `compileMethods` and of `extendClass`. Owners, live dictionaries and the dictionaries
being filled are chosen by the side of the method. -/
def installMethods (ctx : Context hash E) (t : ClassTable hash) (owner : Bool → Oop)
    (live : Bool → Option (MethodDictionary hash)) : List (MethodNode Sym) → (Bool → MethodDictionary hash) →
    Option (Except (CompileError Sym E) (Bool → MethodDictionary hash))
  | [], adds => some (.ok adds)
  | node :: rest, adds =>
    if isDefined (live node.classSide) node.selector then
      some (.error (.redefinition node.selector))
    else
      match compileAndInstallMethod ctx t (owner node.classSide) (adds node.classSide) node with
      | none => none
      | some (.error e) => some (.error e)
      | some (.ok dict) => installMethods ctx t owner live rest (Function.update adds node.classSide dict)

def compileMethods (t : ClassTable hash) (cls metaClass : Oop) (methods : List (MethodNode Sym)) :
    Option (Except (CompileError Sym E) (Bool → MethodDictionary hash)) :=
  installMethods ctx t (bySide cls metaClass) (fun _ => none) methods (bySide (.new 6) (.new 5))

def newMetaClass (s : Super hash) (instanceClass : Oop) : RawClass hash where
  cls := ctx.handles.metaClass
  superClass := some s.metaClass
  subClasses := []
  methodDictionary := none
  instanceShape := s.metaRecord.instanceShape
  instanceVariables := s.metaRecord.instanceVariables
  name := none
  instanceClass := some instanceClass

/-- `subClass`, the class, with the shape and the variables it has before its methods are
compiled. -/
def newClass (s : Super hash) (metaClass : Oop) (name : Sym) (shape : InstanceShape)
    (instVars : List Sym) : RawClass hash where
  cls := metaClass
  superClass := some s.superClass
  subClasses := []
  methodDictionary := none
  instanceShape := shape.withVars instVars.length
  instanceVariables := instVars
  name := some name
  instanceClass := none

structure Prepared (hash : Sym → ℕ) where
  metaRecord : RawClass hash
  record : RawClass hash

/-- `buildClassIn` up to `installClass`: the metaclass is allocated at `t.next`, the class behind
it. -/
def prepare (t : ClassTable hash) (node : ClassNode Sym) (s : Super hash) :
    Option (Except (CompileError Sym E) (Prepared hash)) :=
  match processPragmas t node.pragmas s.record.instanceShape with
  | .error e => some (.error e)
  | .ok shape =>
    let metaRecord := newMetaClass ctx s (t.next+1)
    let record := newClass s t.next node.name shape
      (declareVariables ctx node.vars s.record.instanceVariables)
    let fresh := ({ t with next := t.next+2 }.set t.next metaRecord).set (t.next+1) record
    (compileMethods ctx fresh (t.next+1) t.next node.methods).map fun
      | .error e => .error e
      | .ok dicts => .ok ⟨{ metaRecord with methodDictionary := some (dicts true) },
          { record with methodDictionary := some (dicts false) }⟩

def allocate (t : ClassTable hash) (p : Prepared hash) : ClassTable hash :=
  ({ t with next := t.next+2 }.set t.next p.metaRecord).set (t.next+1) p.record

/-- A name without a binding, or with the value nil, is bound to the new class; else the new class
is copied over the object that the name is bound to. -/
def installClass (t : ClassTable hash) (name : Sym) (cls : Oop)
    (record : RawClass hash) : Option (ClassTable hash × Oop) :=
  match t.bindings name with
  | none => some ({ t with bindings := Function.update t.bindings name (some (.pointer cls)) },cls)
  | some (.immediate _) => none
  | some (.pointer o) =>
    if o = ctx.handles.nil then
      some ({ t with bindings := Function.update t.bindings name (some (.pointer cls)) },cls)
    else (t.classAt o).map fun _ => (t.set o record,o)

def addSubClass (t : ClassTable hash) (superClass cls : Oop) : ClassTable hash :=
  let t := t.modify superClass fun k => { k with subClasses := k.subClasses ++ [cls] }
  match t.classAt superClass, t.classAt cls with
  | some k, some d => t.modify k.cls fun m => { m with subClasses := m.subClasses ++ [d.cls] }
  | _, _ => t

def linkClass (t : ClassTable hash) (s : Super hash) (metaClass cls : Oop) : ClassTable hash :=
  let t := if s.isRoot then t.modify cls fun k => { k with superClass := none }
    else addSubClass t s.superClass cls
  t.modify metaClass fun m => { m with instanceClass := some cls }

/-- A definition that does not compile leaves only objects that nothing refers to. -/
def defineClass (t : ClassTable hash) (node : ClassNode Sym) :
    Option (ClassTable hash × Except (CompileError Sym E) Oop) :=
  (resolveSuperClass ctx t node).bind fun
    | .error e => some (t,.error e)
    | .ok s => (prepare ctx t node s).bind fun
      | .error e => some (t,.error e)
      | .ok p => (installClass ctx (allocate t p) node.name (t.next+1) p.record).map fun r =>
        (linkClass r.1 s t.next r.2,.ok r.2)

def capacityExponent (entries : ℕ) : ℕ → ℕ → ℕ
  | 0, exponent => exponent
  | fuel+1, exponent => if 2^exponent < entries*2 then capacityExponent entries fuel (exponent+1) else exponent

def dictionaryMerging (live : Option (MethodDictionary hash)) (adds : MethodDictionary hash) :
    MethodDictionary hash :=
  let total := (live.elim 0 HashMap.size) + adds.size+8
  let fresh : MethodDictionary hash := .new (capacityExponent total (total*2) 4)
  let copied := live.elim fresh fun d => fresh.copySlots d.table.slots
  copied.copySlots adds.table.slots

structure ExtendContext (hash : Sym → ℕ) where
  target : Oop
  metaClass : Oop
  instDict : MethodDictionary hash
  classDict : MethodDictionary hash

def ExtendContext.storeInstDict (c : ExtendContext hash) (t : ClassTable hash) : ClassTable hash :=
  t.modify c.target fun k => { k with methodDictionary := some c.instDict }

def ExtendContext.storeClassDict (c : ExtendContext hash) (t : ClassTable hash) : ClassTable hash :=
  t.modify c.metaClass fun m => { m with methodDictionary := some c.classDict }

def extendMutate (c : ExtendContext hash) (t : ClassTable hash) : ClassTable hash :=
  c.storeClassDict (c.storeInstDict t)

def prepareExtension (t : ClassTable hash) (name : Sym) (methods : List (MethodNode Sym)) :
    Option (Except (CompileError Sym E) (ExtendContext hash)) :=
  match t.resolve name with
  | none => some (.error (.undefinedVariable name))
  | some (.immediate _) => none
  | some (.pointer target) =>
    if target = ctx.handles.nil then some (.error (.undefinedVariable name))
    else
      match t.classAt target with
      | none => some (.error (.undefinedVariable name))
      | some k =>
        match t.classAt k.cls with
        | none => some (.error (.undefinedVariable name))
        | some m =>
          if m.cls ≠ ctx.handles.metaClass then some (.error (.undefinedVariable name))
          else (installMethods ctx t (bySide target k.cls)
              (bySide k.methodDictionary m.methodDictionary) methods
              (bySide (.new 4) (.new 3))).map fun
            | .error e => .error e
            | .ok adds => .ok ⟨target,k.cls,dictionaryMerging k.methodDictionary (adds false),
                dictionaryMerging m.methodDictionary (adds true)⟩

def extendClass (t : ClassTable hash) (name : Sym) (methods : List (MethodNode Sym)) :
    Option (ClassTable hash × Except (CompileError Sym E) Oop) :=
  (prepareExtension ctx t name methods).map fun
    | .error e => (t,.error e)
    | .ok c => (extendMutate c t,.ok c.target)

def buildClassIn (t : ClassTable hash) : Node Sym → Option (ClassTable hash × Except (CompileError Sym E) Oop)
  | .definition node => defineClass ctx t node
  | .extension name methods => extendClass ctx t name methods

def build (t : ClassTable hash) (node : Node Sym) : Option (ClassTable hash) := (buildClassIn ctx t node).map Prod.fst

end Building

end SmalltalkJit.Classes
