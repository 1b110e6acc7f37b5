import SmalltalkJit.Lib.ByteStream
import SmalltalkJit.Lib.Interleaving
import SmalltalkJit.Lib.OpenAddressing

/-! # The symbol table

`asSymbol` looks a string up in an array with linear probing and enters a new symbol
when it is not there. When the array is three quarters full it is first rebuilt at
twice its size, and the rebuilding stores the array under the global `SymbolTable`,
whose name is itself interned. A call that interns this name and makes the table grow
is therefore overtaken by the call inside it, and the name gets two symbols.
-/
namespace SmalltalkJit.Symbols
open ByteStream OpenAddressing Interleaving List Option

/-- The identity of a symbol and the hash that is stored in it. -/
structure Symbol where
  object : ℕ
  hash : BitVec 32
  deriving DecidableEq

/-- The array, with the contents of the symbols, the counter of the heap, and the next new object. The
answers of the calls, those inside other calls included, are recorded; nothing in the program reads them. -/
structure SymbolTable where
  slots : Slots (List Byte) Symbol
  symbolCount : ℕ
  symbolCountValid : Bool
  next : ℕ
  answers : List (List Byte × ℕ)
  deriving DecidableEq

variable (cityHash64 : List Byte → BitVec 64)

def symbolHash (bytes : List Byte) : BitVec 32 := (cityHash64 bytes <<< 2 >>> 2).setWidth 32

def indexHash (bytes : List Byte) : ℕ := (symbolHash cityHash64 bytes).toNat

def tableName : List Byte := [83,121,109,98,111,108,84,97,98,108,101]

namespace SymbolTable
variable (t : SymbolTable)

def recount : SymbolTable := { t with symbolCount := t.slots.used, symbolCountValid := true }

def answer (bytes : List Byte) (object : ℕ) : SymbolTable := { t with answers := t.answers ++ [(bytes,object)] }

def enter (bytes : List Byte) (i : ℕ) : SymbolTable :=
  answer { t with
    slots := t.slots.set i (some (bytes,⟨t.next,symbolHash cityHash64 bytes⟩))
    symbolCount := t.symbolCount+1
    next := t.next+1 } bytes t.next

/-- `growSymbolTable`, with the call of `asSymbol` in `setGlobalObject`. -/
def growSymbolTable (asSymbol : SymbolTable → List Byte → Option SymbolTable) : Option SymbolTable :=
  (rehash (fun e => e.2.hash.toNat) t.slots (replicate (t.slots.length*2) none)).bind fun slots =>
    asSymbol { t with slots := slots } tableName

/-- The part of `asSymbol` after the counter has been made valid. -/
def intern (asSymbol : SymbolTable → List Byte → Option SymbolTable) (bytes : List Byte) : Option SymbolTable :=
  (findIndex (indexHash cityHash64) t.slots bytes).bind fun i =>
    match t.slots[i]? with
    | some (some entry) => some (t.answer bytes entry.2.object)
    | _ =>
      if (t.symbolCount+1)*4 ≥ t.slots.length*3 then
        (t.growSymbolTable asSymbol).bind fun t =>
          (probeFree t.slots t.slots.length (indexHash cityHash64 bytes &&& (t.slots.length-1))).map
            (t.enter cityHash64 bytes)
      else some (t.enter cityHash64 bytes i)

end SymbolTable

/-- The table after the call; the answer is the last one recorded. `depth` bounds the calls that are
open. -/
def asSymbol : ℕ → SymbolTable → List Byte → Option SymbolTable
  | 0, _, _ => none
  | depth+1, t, bytes => (if t.symbolCountValid then t else t.recount).intern cityHash64 (asSymbol depth) bytes

def call (t : SymbolTable) (bytes : List Byte) : Option SymbolTable := asSymbol cityHash64 2 t bytes

/-- A table in which the search for each symbol ends at it, with room, and with different objects. The
table has at least two slots; the first one has 1024, and they only become more. -/
structure Valid (t : SymbolTable) : Prop where
  slots : t.slots.Sound (indexHash cityHash64)
  large : 2 ≤ t.slots.length
  room : t.slots.used < t.slots.length
  count : t.symbolCountValid = true → t.symbolCount = t.slots.used
  hash : ∀ e, some e ∈ t.slots → e.2.hash = symbolHash cityHash64 e.1
  old : ∀ e, some e ∈ t.slots → e.2.object < t.next
  identity : ∀ e e', some e ∈ t.slots → some e' ∈ t.slots → e.2.object = e'.2.object → e = e'
  answered : ∀ bytes object, (bytes,object) ∈ t.answers → ∃ symbol, some (bytes,symbol) ∈ t.slots ∧ symbol.object = object

/-- Two calls answer the identical object iff the strings have equal contents. -/
def Unique (t : SymbolTable) : Prop := ∀ p ∈ t.answers, ∀ q ∈ t.answers, p.2 = q.2 ↔ p.1 = q.1

structure Interned (t0 t : SymbolTable) : Prop where
  unique : Unique t
  reachable : ∀ e, some e ∈ t.slots → ∃ i : ℕ, findIndex (indexHash cityHash64) t.slots e.1 = some i ∧
    t.slots[i]? = some (some e)
  kept : ∀ e, some e ∈ t0.slots → some e ∈ t.slots
  room : ∃ i : ℕ, t.slots[i]? = some none
  count : t.symbolCountValid = true → t.symbolCount = t.slots.used

/-- The call does not intern the name of the table's global while the table grows. -/
def Undisturbed (t : SymbolTable) (bytes : List Byte) : Prop :=
  bytes = tableName → (∀ symbol, some (bytes,symbol) ∉ t.slots) → (t.slots.used+1)*4 < t.slots.length*3

section Calls
variable {cityHash64} {t t' : SymbolTable} {bytes : List Byte} {i : ℕ} (recur : SymbolTable → List Byte → Option SymbolTable)

/-- The table has its entries still, and at most one more, for the string. -/
structure Adds (t : SymbolTable) (bytes : List Byte) (t' : SymbolTable) : Prop where
  kept : ∀ e, some e ∈ t.slots → some e ∈ t'.slots
  new : ∀ e, some e ∈ t'.slots → some e ∈ t.slots ∨ e.1 = bytes
  answered : ∃ object, (bytes,object) ∈ t'.answers
  used : t'.slots.used ≤ t.slots.used+1
  length : t'.slots.length = t.slots.length
  valid : t'.symbolCountValid = t.symbolCountValid

theorem answers_asSymbol (h : asSymbol cityHash64 depth t bytes = some t') : t.answers ⊆ t'.answers := by
  induction depth generalizing t t' bytes with
  | zero => cases h
  | succ depth ih =>
    obtain ⟨u,hu,ha⟩ : ∃ u : SymbolTable, asSymbol cityHash64 (depth+1) t bytes =
        u.intern cityHash64 (asSymbol cityHash64 depth) bytes ∧ u.answers = t.answers := by
      rw [asSymbol]
      split
      · exact ⟨t,rfl,rfl⟩
      · exact ⟨t.recount,rfl,rfl⟩
    rw [hu,SymbolTable.intern] at h
    rw [← ha]
    obtain ⟨i,-,h⟩ := bind_eq_some_iff.mp h
    split at h
    · cases h
      exact subset_append_left _ _
    · split at h
      · obtain ⟨t2,hg,h⟩ := bind_eq_some_iff.mp h
        obtain ⟨j,-,rfl⟩ := map_eq_some_iff.mp h
        obtain ⟨sl,-,hi⟩ := bind_eq_some_iff.mp hg
        have hsub := ih hi
        exact Subset.trans hsub (subset_append_left _ _)
      · cases h
        exact subset_append_left _ _

theorem unique_of_call (h : call cityHash64 t bytes = some t') (hu : Unique t') : Unique t :=
  fun p hp q hq => hu p (answers_asSymbol h hp) q (answers_asSymbol h hq)

theorem intern_new (hi : findIndex (indexHash cityHash64) t.slots bytes = some i) (he : t.slots[i]? = some none)
    (hl : (t.symbolCount+1)*4 < t.slots.length*3) :
    t.intern cityHash64 recur bytes = some (t.enter cityHash64 bytes i) := by
  simp only [SymbolTable.intern,hi,bind_some,he,if_neg (Nat.not_le_of_lt hl)]

theorem intern_grows (hi : findIndex (indexHash cityHash64) t.slots bytes = some i) (he : t.slots[i]? = some none)
    (hl : ¬ (t.symbolCount+1)*4 < t.slots.length*3) (hg : t.growSymbolTable recur = some t')
    (hj : probeFree t'.slots t'.slots.length (indexHash cityHash64 bytes &&& (t'.slots.length-1)) = some j) :
    t.intern cityHash64 recur bytes = some (t'.enter cityHash64 bytes j) := by
  simp only [SymbolTable.intern,hi,bind_some,he,if_pos (Nat.le_of_not_lt hl),hg,hj,map_some]

variable (h : Valid cityHash64 t)
include h

theorem Valid.recount : Valid cityHash64 t.recount :=
  ⟨h.slots,h.large,h.room,fun _ => rfl,h.hash,h.old,h.identity,h.answered⟩

theorem Valid.unique : Unique t := by
  rintro ⟨bytes,o⟩ hp ⟨b',o'⟩ hq
  obtain ⟨y,hs,rfl⟩ := h.answered _ _ hp
  obtain ⟨y',hs',rfl⟩ := h.answered _ _ hq
  constructor
  · intro heq
    exact (Prod.mk.inj (h.identity _ _ hs hs' heq)).1
  · rintro (rfl : bytes = b')
    obtain ⟨i,hi⟩ := getElem?_of_mem hs
    obtain ⟨j,hj⟩ := getElem?_of_mem hs'
    cases h.slots.index_unique hi hj
    cases hi.symm.trans hj
    rfl

theorem Valid.answer (hs : some (bytes,symbol) ∈ t.slots) : Valid cityHash64 (t.answer bytes symbol.object) where
  slots := h.slots
  large := h.large
  room := h.room
  count := h.count
  hash := h.hash
  old := h.old
  identity := h.identity
  answered bytes' object' hmem := by
    rcases mem_append.mp hmem with hmem | hmem
    · exact h.answered _ _ hmem
    · cases mem_singleton.mp hmem
      exact ⟨symbol,hs,rfl⟩

theorem Valid.enter (hro : t.slots.used+1 < t.slots.length)
    (hi : findIndex (indexHash cityHash64) t.slots bytes = some i) (hem : t.slots[i]? = some none) :
    Valid cityHash64 (t.enter cityHash64 bytes i) ∧ Adds t bytes (t.enter cityHash64 bytes i) := by
  have hmem := fun p => h.slots.mem_set (e := (bytes,⟨t.next,symbolHash cityHash64 bytes⟩)) (p := p) hi
  have hu := used_set_of_empty hem (bytes,(⟨t.next,symbolHash cityHash64 bytes⟩ : Symbol))
  have ha : ∀ y, some (bytes,y) ∉ t.slots := by
    intro y hs
    obtain ⟨j,hj⟩ := getElem?_of_mem hs
    cases (h.slots.found j _ hj).symm.trans hi
    cases hem.symm.trans hj
  have hl : (t.enter cityHash64 bytes i).slots.length = t.slots.length := length_set
  refine ⟨⟨h.slots.set (e := (bytes,⟨t.next,symbolHash cityHash64 bytes⟩)) hi,hl ▸ h.large,?_,?_,?_,?_,?_,?_⟩,
    ⟨?_,?_,⟨t.next,mem_append_right _ mem_cons_self⟩,hu.le,hl,rfl⟩⟩
  · rw [hl]
    exact hu ▸ hro
  · intro hv
    exact (congrArg (· + 1) (h.count hv)).trans hu.symm
  · intro e he
    rcases (hmem e).mp he with rfl | ⟨-,he⟩
    · rfl
    · exact h.hash e he
  · intro e he
    rcases (hmem e).mp he with rfl | ⟨-,he⟩
    · exact Nat.lt_succ_self _
    · exact Nat.lt_succ_of_lt (h.old e he)
  · intro e e' he he' heq
    rcases (hmem e).mp he with rfl | ⟨-,he⟩ <;> rcases (hmem e').mp he' with rfl | ⟨-,he'⟩
    · rfl
    · exact absurd heq (Nat.ne_of_gt (h.old e' he'))
    · exact absurd heq (Nat.ne_of_lt (h.old e he))
    · exact h.identity e e' he he' heq
  · intro b' o' hr
    rcases mem_append.mp hr with hold | hnew
    · obtain ⟨y,hs,ho⟩ := h.answered _ _ hold
      refine ⟨y,(hmem _).mpr (.inr ⟨?_,hs⟩),ho⟩
      rintro (rfl : b' = bytes)
      exact ha y hs
    · cases mem_singleton.mp hnew
      exact ⟨_,(hmem _).mpr (.inl rfl),rfl⟩
  · rintro ⟨key,y⟩ he
    refine (hmem _).mpr (.inr ⟨?_,he⟩)
    rintro (rfl : key = bytes)
    exact ha y he
  · intro e he
    rcases (hmem e).mp he with rfl | ⟨-,he⟩
    · exact .inr rfl
    · exact .inl he

theorem findIndex_empty (ha : ∀ symbol, some (bytes,symbol) ∉ t.slots) :
    ∃ i, findIndex (indexHash cityHash64) t.slots bytes = some i ∧ t.slots[i]? = some none := by
  obtain ⟨i,hi⟩ := isSome_iff_exists.mp (findIndex_isSome (indexHash cityHash64) h.slots.pow h.room bytes)
  refine ⟨i,hi,?_⟩
  obtain hs | ⟨symbol,hs⟩ := probe_spec hi
  · exact hs
  · exact absurd (mem_of_getElem? hs) (ha symbol)

theorem intern_found (hs : some (bytes,symbol) ∈ t.slots) :
    t.intern cityHash64 recur bytes = some (t.answer bytes symbol.object) := by
  obtain ⟨i,hi⟩ := getElem?_of_mem hs
  simp only [SymbolTable.intern,h.slots.found i _ hi,bind_some,hi]

theorem intern_adds
    (hv : t.symbolCountValid = true) (hl : (t.slots.used+1)*4 < t.slots.length*3) (bytes : List Byte) :
    ∃ t', t.intern cityHash64 recur bytes = some t' ∧ Valid cityHash64 t' ∧ Adds t bytes t' := by
  by_cases hf : ∃ y, some (bytes,y) ∈ t.slots
  · obtain ⟨y,hs⟩ := hf
    exact ⟨_,intern_found recur h hs,h.answer hs,fun _ he => he,fun _ he => .inl he,
      ⟨y.object,mem_append_right _ mem_cons_self⟩,Nat.le_succ _,rfl,rfl⟩
  · push Not at hf
    obtain ⟨i,hi,hem⟩ := findIndex_empty h hf
    exact ⟨_,intern_new recur hi hem (h.count hv ▸ hl),h.enter (by omega) hi hem⟩

theorem growSymbolTable_adds (hva : t.symbolCountValid = true) :
    ∃ t1 t2, t.growSymbolTable (asSymbol cityHash64 1) = some t2 ∧ (∀ e, some e ∈ t1.slots ↔ some e ∈ t.slots) ∧
      Valid cityHash64 t2 ∧ Adds t1 tableName t2 ∧ t2.slots.used+1 < t2.slots.length := by
  have hla := h.large
  have hro := h.room
  obtain ⟨slots,hrun,hso,hlen,huse,hen⟩ := h.slots.relocate_double (by omega)
  have hv1 : Valid cityHash64 { t with slots := slots } :=
    ⟨hso,by rw [hlen]; omega,by rw [hlen,huse]; omega,fun hv => (h.count hv).trans huse.symm,
      fun e he => h.hash e ((hen e).mp he),fun e he => h.old e ((hen e).mp he),
      fun e e' he he' => h.identity e e' ((hen e).mp he) ((hen e').mp he'),fun bytes o ha => by
        obtain ⟨y,hs,ho⟩ := h.answered bytes o ha
        exact ⟨y,(hen _).mpr hs,ho⟩⟩
  obtain ⟨t2,ht2,hv2,hadd⟩ := intern_adds (asSymbol cityHash64 0) hv1 hva (by rw [hlen,huse]; omega) tableName
  refine ⟨{ t with slots := slots },t2,?_,hen,hv2,hadd,?_⟩
  · rw [SymbolTable.growSymbolTable,h.slots.rehash_double (fun e he => by rw [h.hash e he]; rfl),
      hrun,bind_some,asSymbol,if_pos (show _ = true from hva),ht2]
  · have hu := hadd.used
    have hl := hadd.length
    change t2.slots.used ≤ slots.used+1 at hu
    change t2.slots.length = slots.length at hl
    omega

theorem call_eq (bytes : List Byte) :
    ∃ u, call cityHash64 t bytes = u.intern cityHash64 (asSymbol cityHash64 1) bytes ∧ Valid cityHash64 u ∧
      u.symbolCountValid = true ∧ u.slots = t.slots := by
  rw [call,asSymbol]
  split
  · next hv => exact ⟨t,rfl,h,hv,rfl⟩
  · exact ⟨t.recount,rfl,h.recount,rfl,rfl⟩

theorem call_valid (hok : Undisturbed t bytes) :
    ∃ t', call cityHash64 t bytes = some t' ∧ Valid cityHash64 t' ∧ ∀ e, some e ∈ t.slots → some e ∈ t'.slots := by
  obtain ⟨u,hc,hu,hva,hsl⟩ := call_eq h bytes
  rw [Undisturbed,← hsl] at hok
  rw [hc,← hsl]
  by_cases hl : (u.slots.used+1)*4 < u.slots.length*3
  · obtain ⟨t',hrun,hv,ha⟩ := intern_adds (asSymbol cityHash64 1) hu hva hl bytes
    exact ⟨t',hrun,hv,ha.kept⟩
  by_cases hf : ∃ y, some (bytes,y) ∈ u.slots
  · obtain ⟨y,hs⟩ := hf
    exact ⟨_,intern_found _ hu hs,hu.answer hs,fun _ he => he⟩
  · push Not at hf
    obtain ⟨i,hi,hem⟩ := findIndex_empty hu hf
    obtain ⟨t1,t2,hg,hen,hv2,ha,hr⟩ := growSymbolTable_adds hu hva
    have habs : ∀ y, some (bytes,y) ∉ t2.slots := by
      intro y hs
      rcases ha.new _ hs with hs | hn
      · exact hf y ((hen _).mp hs)
      · exact hl (hok hn hf)
    obtain ⟨j,hj,hem'⟩ := findIndex_empty hv2 habs
    obtain ⟨hv,hla⟩ := hv2.enter hr hj hem'
    rw [findIndex,← probeFree_eq_probe bytes habs] at hj
    exact ⟨_,intern_grows _ hi hem (hu.count hva ▸ hl) hg hj,hv,fun e he => hla.kept e (ha.kept e ((hen e).mpr he))⟩

theorem call_disturbed (hbad : ¬ Undisturbed t bytes) : ∃ t', call cityHash64 t bytes = some t' ∧ ¬ Unique t' := by
  obtain ⟨u,hc,hu,hv,hsl⟩ := call_eq h bytes
  rw [Undisturbed,← hsl] at hbad
  push Not at hbad
  obtain ⟨rfl,hnew,hl⟩ := hbad
  obtain ⟨i,hi,he⟩ := findIndex_empty hu hnew
  obtain ⟨t1,t2,hg,-,hv2,hadd,-⟩ := growSymbolTable_adds hu hv
  obtain ⟨j,hj⟩ := isSome_iff_exists.mp (probeFree_isSome hv2.slots.pow hv2.room (indexHash cityHash64 tableName))
  refine ⟨_,hc.trans (intern_grows _ hi he (hu.count hv ▸ Nat.not_lt_of_le hl) hg hj),fun hun => ?_⟩
  obtain ⟨o,ha⟩ := hadd.answered
  obtain ⟨y,hs,rfl⟩ := hv2.answered _ _ ha
  have heq := (hun _ (mem_append_left _ ha) (tableName,t2.next) (mem_append_right _ mem_cons_self)).mpr rfl
  exact absurd heq (Nat.ne_of_lt (hv2.old _ hs))

theorem valid_iff_undisturbed (hc : call cityHash64 t bytes = some t') :
    Valid cityHash64 t' ↔ Undisturbed t bytes := by
  constructor
  · intro hv
    by_contra hbad
    obtain ⟨u,hu,hnot⟩ := call_disturbed h hbad
    cases hu.symm.trans hc
    exact hnot hv.unique
  · intro hok
    obtain ⟨u,hu,hv,-⟩ := call_valid h hok
    cases hu.symm.trans hc
    exact hv

omit h in
theorem valid_or_not_unique (h : Valid cityHash64 t ∨ ¬ Unique t) (hc : call cityHash64 t bytes = some t') :
    Valid cityHash64 t' ∨ ¬ Unique t' := by
  rcases h with h | h
  · by_cases hok : Undisturbed t bytes
    · exact .inl ((valid_iff_undisturbed h hc).mpr hok)
    · obtain ⟨u,hu,hnot⟩ := call_disturbed h hok
      cases hu.symm.trans hc
      exact .inr hnot
  · exact .inr fun hun => h (unique_of_call hc hun)

end Calls

variable {cityHash64}

/-- Starting from a valid table, calls of `asSymbol` end and keep symbols unique iff none of them interns
the name of the table's global while the table grows. -/
theorem symbols_unique_iff {t : SymbolTable} (h : Valid cityHash64 t) (strings : List (List Byte)) :
    (∃ t', perform (call cityHash64) t strings = some t' ∧ Interned cityHash64 t t') ↔
      Meets (call cityHash64) Undisturbed t strings := by
  constructor
  · rintro ⟨t',hrun,hint⟩
    have hva := (invariant (fun _ _ _ hs hc => valid_or_not_unique hs hc) (.inl h) hrun).resolve_right
      (not_not_intro hint.unique)
    refine (meets_iff (fun _ _ _ hs hc => valid_or_not_unique hs hc)
      (fun _ _ _ _ hs hc => valid_iff_undisturbed hs hc) (fun _ _ _ hs hnot hc hv => ?_) (.inl h) h
      hrun).mp hva
    exact hs.resolve_left hnot (unique_of_call hc hv.unique)
  · intro hm
    obtain ⟨t',hrun,hv,hk⟩ := exists_perform_of_meets
      (P := fun u => Valid cityHash64 u ∧ ∀ e, some e ∈ t.slots → some e ∈ u.slots)
      (fun u bytes hu hok => by
        obtain ⟨u',hc,hv,hk⟩ := call_valid hu.1 hok
        exact ⟨u',hc,hv,fun e he => hk e (hu.2 e he)⟩) ⟨h,fun _ he => he⟩ hm
    refine ⟨t',hrun,hv.unique,fun e he => ?_,hk,exists_empty hv.room,hv.count⟩
    obtain ⟨i,hi⟩ := getElem?_of_mem he
    exact ⟨i,hv.slots.found i e hi,hi⟩

def SymbolTable.empty : SymbolTable := ⟨replicate 2 none,0,false,0,[]⟩

theorem valid_empty : Valid cityHash64 .empty where
  slots := sound_replicate ⟨1,rfl⟩
  large := le_rfl
  room := by decide
  count := nofun
  hash _ he := absurd (eq_of_mem_replicate he) nofun
  old _ he := absurd (eq_of_mem_replicate he) nofun
  identity _ _ he := absurd (eq_of_mem_replicate he) nofun
  answered _ _ ha := absurd ha not_mem_nil

/-- Three strings, the second of which makes the table grow. -/
theorem symbols_unique_three : ∃ t', perform (call fun _ => 0) .empty [[97],[98],[97]] = some t' ∧
    Interned (fun _ => 0) .empty t' :=
  (symbols_unique_iff valid_empty [[97],[98],[97]]).mpr (meets_of_forall fun bytes hmem _ hn =>
    absurd (hn ▸ hmem) (by decide))

theorem tableName_not_unique (cityHash64 : List Byte → BitVec 64) :
    ∃ t', perform (call cityHash64) .empty [[97],tableName] = some t' ∧ ¬ Unique t' := by
  have hva : Valid cityHash64 SymbolTable.empty.recount := valid_empty.recount
  have hn : ∀ e, some e ∉ SymbolTable.empty.recount.slots := fun _ he => absurd (eq_of_mem_replicate he) nofun
  obtain ⟨i,hi,hem⟩ := findIndex_empty hva fun _ => hn ([97],_)
  have hf : call cityHash64 .empty [97] = some (SymbolTable.empty.recount.enter cityHash64 [97] i) :=
    intern_new _ hi hem (by decide)
  obtain ⟨hv,ha⟩ := hva.enter (by decide) hi hem
  have hu := used_set_of_empty hem ([97],(⟨0,symbolHash cityHash64 [97]⟩ : Symbol))
  have hbad : ¬ Undisturbed (SymbolTable.empty.recount.enter cityHash64 [97] i) tableName := by
    intro hok
    have hl := hok rfl fun y hs => by
      rcases ha.new _ hs with hs | hna
      · exact hn _ hs
      · exact absurd (show tableName = [97] from hna) (by decide)
    rw [ha.length,show (SymbolTable.empty.recount.enter cityHash64 [97] i).slots.used = 0+1 from hu] at hl
    exact absurd hl (by decide)
  obtain ⟨t',hse,hnot⟩ := call_disturbed hv hbad
  exact ⟨t',by simp only [perform,hf,hse],hnot⟩

theorem symbols_not_unique : ∃ t', perform (call fun bytes => BitVec.ofNat 64 bytes.length) .empty
    [[97],tableName] = some t' ∧ ¬ Unique t' := tableName_not_unique _

end SmalltalkJit.Symbols
