import Mathlib.Data.Nat.Notation

/-! # Monitors and the code of the caller

The operations of `SharedDictionary` and the writers of `ConcurrentDictionary` enter a
monitor, work on a dictionary, leave the monitor and go on. The dictionary calls `=`
and `hash` of the keys, prints elements and evaluates blocks, and all of that is code
of the caller, which can also leave the operation, with an error that is handled
outside or with a non-local return. Nothing then leaves the monitor.
-/
namespace SmalltalkJit.Monitors

variable {V α β : Type}

/-- Code of the image that calls code of the caller and does not touch a monitor. -/
inductive Inner (V α : Type)
  | done (a : α)
  | call (k : V → Inner V α)

inductive Code (V α : Type)
  | done (a : α)
  | call (k : V → Code V α)
  /-- `Processor monitorEnterOn: self` -/
  | enter (k : Code V α)
  /-- `Processor monitorExit` -/
  | exit (k : Code V α)

/-- How code ends: with a result unless it has been left, after so many calls of code of the caller, with
the monitor held so many times. -/
structure Ending (α : Type) where
  result : Option α
  calls : ℕ
  held : ℕ
  deriving DecidableEq

section Running
variable (user : ℕ → Option V)

/-- `user` is what the calls do, one after the other: they answer an object or leave. -/
def Inner.run : Inner V α → ℕ → Option α × ℕ
  | .done a, calls => (some a,calls)
  | .call k, calls =>
    match user calls with
    | some v => (k v).run (calls+1)
    | none => (none,calls+1)

def Inner.Returns : Inner V α → ℕ → Prop
  | .done _, _ => True
  | .call k, calls => ∃ v, user calls = some v ∧ (k v).Returns (calls+1)

def Code.run : Code V α → ℕ → ℕ → Ending α
  | .done a, calls, held => ⟨some a,calls,held⟩
  | .call k, calls, held =>
    match user calls with
    | some v => (k v).run (calls+1) held
    | none => ⟨none,calls+1,held⟩
  | .enter k, calls, held => k.run calls (held+1)
  | .exit k, calls, held => k.run calls (held-1)

end Running

def Inner.bind : Inner V α → (α → Inner V β) → Inner V β
  | .done a, f => f a
  | .call k, f => .call fun v => (k v).bind f

def Inner.andThen : Inner V α → (α → Code V β) → Code V β
  | .done a, f => f a
  | .call k, f => .call fun v => (k v).andThen f

def Inner.value : Inner V V := .call .done

/-- A block of the caller for each element. -/
def Inner.each (answer : β) : List α → Inner V β
  | [] => .done answer
  | _ :: rest => .call fun _ => each answer rest

structure Dictionary (V : Type) where
  atPut : V → V → Inner V Unit
  atIfAbsent : V → Inner V V → Inner V V
  removeKeyIfAbsent : V → Inner V V → Inner V V
  includesKey : V → Inner V Bool
  size : Inner V V
  keys : Inner V (List V)
  values : Inner V (List V)
  associations : Inner V (List (V × V))
  printOn : Inner V Unit

structure Operation (V : Type) where
  α : Type
  inside : Inner V α
  after : α → Inner V V

def Operation.code (op : Operation V) : Code V V :=
  .enter (op.inside.andThen fun a => .exit ((op.after a).andThen .done))

inductive Method (V : Type)
  | atPut (key anObject : V)
  | atIfAbsent (key : V)
  | at (key : V)
  | atIfPresent (key : V)
  | atIfAbsentPut (key : V)
  | removeKeyIfAbsent (key : V)
  | removeKey (key : V)
  | includesKey (key : V)
  | size
  | keys
  | values
  | do
  | keysDo
  | keysAndValuesDo
  | associationsDo
  | printOn

structure SharedDictionary (V : Type) where
  self : V
  nil : V
  absent : V
  object : Bool → V
  collection : List V → V
  dict : Dictionary V

namespace SharedDictionary
variable [DecidableEq V] (d : SharedDictionary V)

/-- The block is evaluated when the value is the sentinel. `signal` of an error calls the handler. -/
def orBlock (v : V) : Inner V V := if v = d.absent then .value else .done v

def method : Method V → Operation V
  | .atPut key anObject => ⟨Unit,d.dict.atPut key anObject,fun _ => .done anObject⟩
  | .atIfAbsent key | .at key => ⟨V,d.dict.atIfAbsent key (.done d.absent),d.orBlock⟩
  | .atIfPresent key =>
    ⟨V,d.dict.atIfAbsent key (.done d.absent),fun v => if v = d.absent then .done d.nil else .value⟩
  | .atIfAbsentPut key =>
    ⟨V,d.dict.atIfAbsent key (Inner.value.bind fun nv => (d.dict.atPut key nv).bind fun _ => .done nv),.done⟩
  | .removeKeyIfAbsent key | .removeKey key => ⟨V,d.dict.removeKeyIfAbsent key (.done d.absent),d.orBlock⟩
  | .includesKey key => ⟨Bool,d.dict.includesKey key,fun b => .done (d.object b)⟩
  | .size => ⟨V,d.dict.size,.done⟩
  | .keys => ⟨List V,d.dict.keys,fun keys => .done (d.collection keys)⟩
  | .values => ⟨List V,d.dict.values,fun values => .done (d.collection values)⟩
  | .do => ⟨List V,d.dict.values,.each d.self⟩
  | .keysDo => ⟨List V,d.dict.keys,.each d.self⟩
  | .keysAndValuesDo | .associationsDo => ⟨List (V × V),d.dict.associations,.each d.self⟩
  | .printOn => ⟨Unit,d.dict.printOn,fun _ => .done d.self⟩

end SharedDictionary

/-- The methods of `ConcurrentDictionary` that enter the monitor. -/
inductive Writer (V : Type)
  | atPut (key anObject : V)
  | atIfAbsentPut (key : V)
  | removeKeyIfAbsent (key : V)
  | removeKey (key : V)

structure ConcurrentDictionary (V : Type) where
  nil : V
  snapshot : Dictionary V
  copyOfSnapshot : Inner V (Dictionary V)

namespace ConcurrentDictionary
variable [DecidableEq V] (d : ConcurrentDictionary V)

def copyAtPut (key anObject : V) : Inner V Unit := d.copyOfSnapshot.bind fun copy => copy.atPut key anObject

def writer : Writer V → Operation V
  | .atPut key anObject => ⟨Unit,d.copyAtPut key anObject,fun _ => .done anObject⟩
  | .atIfAbsentPut key =>
    ⟨V,(d.snapshot.atIfAbsent key (.done d.nil)).bind fun v =>
      if v = d.nil then Inner.value.bind fun v => (d.copyAtPut key v).bind fun _ => .done v else .done v,.done⟩
  | .removeKeyIfAbsent key | .removeKey key =>
    ⟨Option V,(d.snapshot.includesKey key).bind fun had =>
      if had then d.copyOfSnapshot.bind fun copy => (copy.removeKeyIfAbsent key (.done d.nil)).bind fun v => .done (some v)
      else .done none,fun v => v.elim .value .done⟩

end ConcurrentDictionary

section Balance
theorem run_andThen (inner : Inner V α) (f : α → Code V β) (calls held : ℕ) : (inner.andThen f).run user calls held =
      match inner.run user calls with
      | (some a,calls) => (f a).run user calls held
      | (none,calls) => ⟨none,calls,held⟩ := by
  induction inner generalizing calls with
  | done => rfl
  | call _ ih =>
    rw [Inner.andThen,Code.run,Inner.run]
    cases user calls with
    | none => rfl
    | some v => exact ih v (calls+1)

theorem held_andThen_done (inner : Inner V α) (calls held : ℕ) :
    ((inner.andThen .done).run user calls held).held = held := by
  rw [run_andThen]
  split <;> rfl

theorem isSome_run_iff (inner : Inner V α) (calls : ℕ) :
    (inner.run user calls).1.isSome ↔ inner.Returns user calls := by
  induction inner generalizing calls with
  | done => exact iff_of_true rfl trivial
  | call _ ih =>
    rw [Inner.run,Inner.Returns]
    cases user calls with
    | none => exact iff_of_false nofun fun ⟨_,hv,_⟩ => nomatch hv
    | some v => exact (ih v (calls+1)).trans ⟨fun h => ⟨v,rfl,h⟩,fun ⟨_,hv,h⟩ => Option.some.inj hv ▸ h⟩

theorem held_code_iff (op : Operation V) (calls held : ℕ) :
    (op.code.run user calls held).held = held ↔ op.inside.Returns user calls := by
  rw [Operation.code,Code.run,run_andThen,← isSome_run_iff]
  split
  · next a calls hi =>
    rw [hi,Code.run,held_andThen_done]
    exact iff_of_true rfl rfl
  · next calls hi =>
    rw [hi]
    exact iff_of_false (Nat.succ_ne_self held) nofun

end Balance

/-- Whatever the dictionary inside, whatever the calls of code of the caller do, and however often the
process holds the monitor before: it holds it as often afterwards iff every call that the operation makes
under the monitor answers. -/
theorem monitors_released_iff [DecidableEq V] (user : ℕ → Option V) (calls held : ℕ) :
    (∀ (d : SharedDictionary V) (m : Method V), ((d.method m).code.run user calls held).held = held ↔
      (d.method m).inside.Returns user calls) ∧
    ∀ (d : ConcurrentDictionary V) (w : Writer V), ((d.writer w).code.run user calls held).held = held ↔
      (d.writer w).inside.Returns user calls :=
  ⟨fun d m => held_code_iff (d.method m) calls held,fun d w => held_code_iff (d.writer w) calls held⟩

def Dictionary.empty : Dictionary ℕ where
  atPut _ _ := .call fun _ => .done ()
  atIfAbsent _ block := .call fun _ => block
  removeKeyIfAbsent _ block := .call fun _ => block
  includesKey _ := .call fun _ => .done false
  size := .done 0
  keys := .done []
  values := .done []
  associations := .done []
  printOn := .done ()

/-- `at:ifAbsentPut:` of a shared and of a concurrent dictionary. The first call, of `hash`, answers, and
the second, of the block, leaves the operation. -/
theorem monitors_not_released :
    (((⟨1,2,3,fun _ => 4,fun _ => 5,.empty⟩ : SharedDictionary ℕ).method (.atIfAbsentPut 7)).code.run
      (fun n => if n = 0 then some 9 else none) 0 0).held = 1 ∧
    (((⟨2,.empty,.done .empty⟩ : ConcurrentDictionary ℕ).writer (.atIfAbsentPut 7)).code.run
      (fun n => if n = 0 then some 9 else none) 0 0).held = 1 := ⟨rfl,rfl⟩

end SmalltalkJit.Monitors
