import SmalltalkJit.Http.HttpConnection

/-! # Requests do not depend on the reads

Two readers that deliver the same lines and bytes deliver the same requests. The
connection delivers what the stream of its unconsumed bytes delivers, and the stream
gets shorter with every line, so that all loops end.
-/
namespace SmalltalkJit.Http
open ByteStream List HttpConnection Nat

variable {S S' α β T : Type} {R : S → S' → Prop}

def Related (R : S → S' → Prop) : Progress S α → Progress S' α → Prop
  | .done a s, .done a' s' => a = a' ∧ R s s'
  | .parked, .parked => True
  | .error, .error => True
  | .running, .running => True
  | _, _ => False

theorem Related.bind (h : Related R p p') (hf : ∀ a s s', R s s' → Related R (f a s) (f' a s')) :
    Related R (p.bind f) (p'.bind f') := by
  cases p <;> cases p' <;> try exact h.elim
  case done.done a s a' s' =>
    obtain ⟨rfl,hs⟩ := h
    exact hf a s s' hs
  all_goals trivial

structure Simulates (R : S → S' → Prop) (r : Reader S) (r' : Reader S') : Prop where
  readLine : ∀ {s s'}, R s s' → Related R (r.readLine s) (r'.readLine s')
  readBytes : ∀ {s s'} (n), R s s' → Related R (r.readBytes n s) (r'.readBytes n s')

variable {s : S}

section Simulation
variable {r : Reader S} {r' : Reader S'} (h : Simulates R r r') (parsing : Parsing T)
include h

theorem readHeadersInto_related (fuel : ℕ) (headers : List (List Byte)) (hs : R s s') :
    Related R (readHeadersInto r fuel headers s) (readHeadersInto r' fuel headers s') := by
  induction fuel generalizing headers s s' with
  | zero => trivial
  | succ _ ih =>
    refine (h.readLine hs).bind fun line s s' hs => ?_
    match line with
    | none => exact ⟨rfl,hs⟩
    | some [] => exact ⟨rfl,hs⟩
    | some (byte :: line) => exact ih _ hs

theorem readBodyInto_related (headers : List (List Byte)) (hs : R s s') :
    Related R (readBodyInto parsing r headers s) (readBodyInto parsing r' headers s') := by
  unfold readBodyInto
  split
  · trivial
  · next n _ =>
    split
    · exact h.readBytes n hs
    · exact ⟨rfl,hs⟩

theorem readRequest_related (fuel : ℕ) (hs : R s s') :
    Related R (readRequest parsing r fuel s) (readRequest parsing r' fuel s') := by
  induction fuel generalizing s s' with
  | zero => trivial
  | succ fuel ih =>
    refine (h.readLine hs).bind fun line s s' hs => ?_
    match line with
    | none => exact ⟨rfl,hs⟩
    | some [] => exact ih hs
    | some (byte :: line) =>
      dsimp only
      split
      · exact ⟨rfl,hs⟩
      · split
        · trivial
        · exact (readHeadersInto_related h fuel [] hs).bind fun headers s s' hs =>
            (readBodyInto_related h parsing headers hs).bind fun _ _ _ hs => ⟨rfl,hs⟩

theorem readRequests_eq (fuel : ℕ) (hs : R s s') :
    readRequests parsing r fuel s = readRequests parsing r' fuel s' := by
  induction fuel generalizing s s' with
  | zero => rfl
  | succ fuel ih =>
    have hrel := readRequest_related h parsing (fuel+1) hs
    unfold readRequests
    cases hp : readRequest parsing r (fuel+1) s <;> cases hp' : readRequest parsing r' (fuel+1) s' <;>
      rw [hp,hp'] at hrel <;> try exact hrel.elim
    case done.done request t request' t' =>
      obtain ⟨rfl,ht⟩ := hrel
      cases request with
      | none => rfl
      | some => simp only [ih ht]

end Simulation

variable {bytes : List Byte} {fuel : ℕ}

namespace HttpConnection

/-- The position is in the buffer or right after it, and no read is empty. -/
structure Ready (c : HttpConnection) : Prop where
  one_le : 1 ≤ c.pos
  le : c.pos ≤ c.pending.length+1
  reads : ∀ chunk ∈ c.reads, chunk ≠ []

def Holds (c : HttpConnection) (bytes : List Byte) : Prop := c.Ready ∧ c.rest = bytes

variable {c : HttpConnection}

def ahead (c : HttpConnection) : List Byte := c.pending.drop (c.pos-1)

theorem rest_eq : c.rest = c.ahead ++ c.reads.flatten := rfl

theorem Ready.length_ahead (h : c.Ready) : c.ahead.length = c.pending.length+1 - c.pos := by
  have h1 := h.one_le
  have h2 := h.le
  rw [ahead,length_drop]
  omega

theorem Ready.copyFrom_eq (h : c.Ready) (k : ℕ) : copyFrom c.pending c.pos (c.pos + k-1) = c.ahead.take k := by
  have h1 := h.one_le
  rw [copyFrom,ahead,show c.pos + k-1+1 - c.pos = k by omega]

theorem Ready.copyFrom_length (h : c.Ready) : copyFrom c.pending c.pos c.pending.length = c.ahead := by
  rw [copyFrom,← h.length_ahead]
  exact take_length

theorem Ready.compact_eq (h : c.Ready) : c.compact = ⟨c.ahead,1,c.reads⟩ := by
  unfold compact
  split
  · rw [h.copyFrom_length]
  · next hpos =>
    obtain ⟨p,pos,reads⟩ := c
    obtain rfl : pos = 1 := Nat.le_antisymm (Nat.le_of_not_lt hpos) h.one_le
    rfl

theorem Ready.readMore_nil (h : c.Ready) (hr : c.reads = []) (closed : Bool) :
    c.readMore closed = if closed then some (0,⟨c.ahead,1,[]⟩) else none := by
  rw [readMore,h.compact_eq,hr]

theorem Ready.readMore_cons (h : c.Ready) {reads : List (List Byte)} (hr : c.reads = chunk :: reads)
    (closed : Bool) : ∃ n, c.readMore closed = some (n+1,⟨c.ahead ++ chunk,1,reads⟩) := by
  have hne := h.reads chunk (hr ▸ mem_cons_self)
  obtain ⟨n,hn⟩ := exists_eq_add_one_of_ne_zero (fun hz => hne (eq_nil_of_length_eq_zero hz))
  exact ⟨n,by rw [readMore,h.compact_eq,hr,← hn]⟩

theorem Holds.readMore (h : c.Holds bytes) {reads : List (List Byte)}
    (hr : c.reads = chunk :: reads) : Holds ⟨c.ahead ++ chunk,1,reads⟩ bytes := by
  refine ⟨⟨le_rfl,le_add_left 1 _,fun chunk' hmem => h.1.reads chunk' (hr ▸ mem_cons_of_mem _ hmem)⟩,?_⟩
  change (c.ahead ++ chunk) ++ reads.flatten = bytes
  rw [← h.2,rest_eq,hr,flatten_cons,append_assoc]

theorem Holds.drop (h : c.Holds bytes) (hk : k ≤ c.ahead.length) :
    Holds { c with pos := c.pos + k } (bytes.drop k) := by
  have h1 := h.1.one_le
  have h2 := h.1.length_ahead
  have h3 := h.1.le
  refine ⟨⟨by change 1 ≤ c.pos + k; omega,by change c.pos + k ≤ c.pending.length+1; omega,h.1.reads⟩,?_⟩
  rw [← h.2,rest_eq,rest_eq,drop_append_of_le_length hk]
  congr 1
  rw [ahead,ahead,drop_drop]
  change c.pending.drop (c.pos + k-1) = _
  rw [show c.pos + k-1 = c.pos-1 + k by omega]

theorem indexOfByte_eq (byte : Byte) : indexOfByte c.pending byte c.pos =
    (c.ahead.findIdx? (· = byte)).elim 0 (c.pos + ·) := by
  rw [indexOfByte,ahead]
  cases (c.pending.drop (c.pos-1)).findIdx? (· = byte) <;> rfl

theorem Holds.carriage_iff (h : c.Holds bytes) (hk : k < c.ahead.length) :
    c.pos ≤ c.pos + k-1 ∧ c.pending[c.pos + k-1-1]? = some 13 ↔ 0 < k ∧ bytes[k-1]? = some 13 := by
  have h1 := h.1.one_le
  by_cases hpos : 0 < k
  · have hb : bytes[k-1]? = c.pending[c.pos + k-1-1]? := by
      rw [← h.2,rest_eq,List.getElem?_append_left (by omega),ahead,List.getElem?_drop]
      congr 1
      omega
    rw [hb]
    exact and_congr_left fun _ => by omega
  · exact iff_of_false (fun hcr => by omega) fun hcr => hpos hcr.1

theorem readLineLoop_related (closed : Bool) (hfu : c.reads.length < fuel) (h : c.Holds bytes) :
    Related Holds (c.readLineLoop closed fuel) ((streamReader closed).readLine bytes) := by
  induction fuel generalizing c with
  | zero => omega
  | succ fuel ih =>
    have hb : bytes = c.ahead ++ c.reads.flatten := h.2.symm
    have hone := h.1.one_le
    rw [readLineLoop,indexOfByte_eq]
    cases hf : c.ahead.findIdx? (· = 10) with
    | some k =>
      obtain ⟨hk,-⟩ := List.findIdx?_eq_some_iff_findIdx_eq.mp hf
      have hl : lineOf bytes = some (if 0 < k ∧ bytes[k-1]? = some 13 then bytes.take (k-1)
          else bytes.take k,bytes.drop (k+1)) := by
        rw [lineOf,hb,List.findIdx?_append,hf]
        rfl
      have ht : ∀ j ≤ k, copyFrom c.pending c.pos (c.pos + j-1) = bytes.take j := by
        intro j hj
        rw [h.1.copyFrom_eq,hb,take_append_of_le_length (by omega)]
      simp only [streamReader,hl,Option.elim,if_pos (show 0 < c.pos + k by omega),h.carriage_iff hk]
      refine ⟨congrArg some ?_,h.drop (show k+1 ≤ c.ahead.length from hk)⟩
      split
      · next hcr => rw [← ht (k-1) (by omega),show c.pos + (k-1)-1 = c.pos + k-1-1 by omega]
      · exact ht k le_rfl
    | none =>
      simp only [Option.elim,lt_irrefl,if_false]
      cases hr : c.reads with
      | nil =>
        have hl : lineOf bytes = none := by
          rw [lineOf,hb,hr,flatten_nil,append_nil,hf]
          rfl
        rw [h.1.readMore_nil hr]
        simp only [streamReader,hl]
        cases closed with
        | true =>
          refine ⟨rfl,⟨le_rfl,le_add_left 1 _,nofun⟩,?_⟩
          rw [hb,hr]
          rfl
        | false => trivial
      | cons _ reads =>
        obtain ⟨n,hm⟩ := h.1.readMore_cons hr closed
        rw [hm]
        rw [hr,length_cons] at hfu
        exact ih (show reads.length < fuel by omega) (h.readMore hr)

theorem readBytesLoop_related (closed : Bool) (n : Number) (hf : c.reads.length < fuel) (h : c.Holds bytes) :
    Related Holds (c.readBytesLoop closed n fuel) ((streamReader closed).readBytes n bytes) := by
  induction fuel generalizing c with
  | zero => omega
  | succ fuel ih =>
    have hb : bytes = c.ahead ++ c.reads.flatten := h.2.symm
    rw [readBytesLoop,← h.1.length_ahead]
    by_cases hm : n.exceeds c.ahead.length = true
    · rw [if_pos hm]
      cases hr : c.reads with
      | nil =>
        rw [hr,flatten_nil,append_nil] at hb
        rw [h.1.readMore_nil hr]
        simp only [streamReader,hb,if_pos hm]
        cases closed with
        | true =>
          refine ⟨?_,⟨le_rfl,le_add_left 1 _,nofun⟩,rfl⟩
          exact take_length
        | false => trivial
      | cons _ reads =>
        obtain ⟨n,hm⟩ := h.1.readMore_cons hr closed
        rw [hm]
        rw [hr,length_cons] at hf
        exact ih (show reads.length < fuel by omega) (h.readMore hr)
    · have hle : c.ahead.length ≤ bytes.length := by
        rw [hb,length_append]
        exact le_add_right _ _
      rw [if_neg hm]
      simp only [streamReader,if_neg fun hall => hm (n.anti hle hall)]
      cases hc : n.count with
      | none => trivial
      | some k =>
        have hk : k ≤ c.ahead.length := Nat.le_of_not_lt fun hlt => hm ((n.exact hc _).mpr hlt)
        refine ⟨?_,h.drop hk⟩
        rw [h.1.copyFrom_eq,hb,take_append_of_le_length hk]

theorem simulates (closed : Bool) : Simulates Holds (reader closed) (streamReader closed) where
  readLine h := readLineLoop_related closed (lt_succ_self _) h
  readBytes n h := readBytesLoop_related closed n (lt_succ_self _) h

end HttpConnection

/-- The bound on the turns was large enough, and an answer is as stated. -/
def Ends (P : α → S → Prop) : Progress S α → Prop
  | .done a s => P a s
  | .running => False
  | _ => True

theorem Ends.bind (h : Ends P p) (hf : ∀ a s, P a s → Ends Q (f a s)) : Ends Q (p.bind f) := by
  cases p with
  | done a s => exact hf a s h
  | running => exact h.elim
  | parked | error => trivial

theorem Ends.mono (h : Ends P p) (hPQ : ∀ a s, P a s → Q a s) : Ends Q p := by
  cases p with
  | done a s => exact hPQ a s h
  | running => exact h.elim
  | parked | error => trivial

section Stream
variable (closed : Bool) (parsing : Parsing T)

theorem readLine_ends (bytes : List Byte) : Ends (fun line rest => rest.length ≤ bytes.length ∧
    (line ≠ none → rest.length < bytes.length)) ((streamReader closed).readLine bytes) := by
  unfold streamReader
  dsimp only
  split
  · next line rest hl =>
    obtain ⟨k,hk,hr⟩ := Option.map_eq_some_iff.mp hl
    obtain ⟨hlt,-⟩ := List.findIdx?_eq_some_iff_findIdx_eq.mp hk
    obtain rfl := (Prod.mk.inj hr).2
    change (bytes.drop (k+1)).length ≤ bytes.length ∧ _
    rw [length_drop]
    exact ⟨by omega,fun _ => by omega⟩
  · split
    · exact ⟨le_rfl,fun hne => absurd rfl hne⟩
    · trivial

theorem readBytes_ends (n : Number) (bytes : List Byte) :
    Ends (fun _ rest => rest.length ≤ bytes.length) ((streamReader closed).readBytes n bytes) := by
  unfold streamReader
  dsimp only
  split
  · split
    · exact zero_le _
    · trivial
  · split
    · rw [Ends,length_drop]
      exact sub_le _ _
    · trivial

theorem readHeadersInto_ends (headers : List (List Byte)) (h : bytes.length < fuel) :
    Ends (fun _ rest => rest.length ≤ bytes.length) (readHeadersInto (streamReader closed) fuel headers bytes) := by
  induction fuel generalizing headers bytes with
  | zero => omega
  | succ fuel ih =>
    refine (readLine_ends closed bytes).bind fun line rest hr => ?_
    match line with
    | none => exact hr.1
    | some [] => exact hr.1
    | some (byte :: line) =>
      have hlt := hr.2 nofun
      exact (ih (headers ++ [byte :: line]) (show rest.length < fuel by omega)).mono fun _ _ hle => le_trans hle hr.1

theorem readBodyInto_ends (headers : List (List Byte)) (bytes : List Byte) :
    Ends (fun _ rest => rest.length ≤ bytes.length) (readBodyInto parsing (streamReader closed) headers bytes) := by
  unfold readBodyInto
  split
  · trivial
  · next length _ =>
    split
    · exact readBytes_ends closed length bytes
    · exact le_rfl

theorem readRequest_ends (h : bytes.length < fuel) :
    Ends (fun request rest => request ≠ none → rest.length < bytes.length)
      (readRequest parsing (streamReader closed) fuel bytes) := by
  induction fuel generalizing bytes with
  | zero => omega
  | succ fuel ih =>
    refine (readLine_ends closed bytes).bind fun line rest hr => ?_
    match line with
    | none => exact fun hne => absurd rfl hne
    | some [] =>
      have hlt := hr.2 nofun
      exact (ih (show rest.length < fuel by omega)).mono fun _ _ hle hne => lt_trans (hle hne) hlt
    | some (byte :: line) =>
      have hlt := hr.2 nofun
      dsimp only
      split
      · exact fun hne => absurd rfl hne
      · split
        · trivial
        · refine (readHeadersInto_ends closed [] (show rest.length < fuel by omega)).bind fun headers l' hle => ?_
          exact (readBodyInto_ends closed parsing headers l').bind fun _ _ hle' _ =>
            lt_of_le_of_lt (le_trans hle' hle) hlt

theorem readRequests_ends (h : bytes.length < fuel) :
    (readRequests parsing (streamReader closed) fuel bytes).2 ≠ .running := by
  induction fuel generalizing bytes with
  | zero => omega
  | succ _ ih =>
    have he := readRequest_ends closed parsing h
    unfold readRequests
    split
    · next request l hr =>
      rw [hr] at he
      have hlt := he nofun
      exact ih (by omega)
    · exact nofun
    · exact nofun
    · exact nofun
    · next hr =>
      rw [hr] at he
      exact he.elim

end Stream

/-- However the bytes arrive, in reads that are not empty, the requests and how they end are those of the
stream of the bytes, and the reading comes to its end. -/
theorem requests_of_reads (parsing : Parsing T) (closed : Bool) {reads : List (List Byte)}
    (h : ∀ chunk ∈ reads, chunk ≠ []) {fuel : ℕ} (hfuel : reads.flatten.length < fuel) :
    readRequests parsing (reader closed) fuel (.on reads) =
      readRequests parsing (streamReader closed) fuel reads.flatten ∧
    (readRequests parsing (reader closed) fuel (.on reads)).2 ≠ .running := by
  have hh : (on reads).Holds reads.flatten := ⟨⟨le_rfl,le_rfl,h⟩,rfl⟩
  rw [readRequests_eq (simulates closed) parsing fuel hh]
  exact ⟨rfl,readRequests_ends closed parsing hfuel⟩

/-- A request line and its end in three reads, and a second request in the last of them. -/
theorem requests_of_three_reads :
    readRequests (⟨some,fun _ => some ⟨fun _ => false,none,nofun,nofun⟩⟩ : Parsing (List Byte))
      (reader true) 32 (.on [[71,32],[47,13],[10,13,10,80,32,47,10,10]]) =
    ([⟨[71],[47],http10,[],[]⟩,⟨[80],[47],http10,[],[]⟩],.closed) :=
  (requests_of_reads _ true (by decide) (by decide)).1.trans (by rfl)

end SmalltalkJit.Http
