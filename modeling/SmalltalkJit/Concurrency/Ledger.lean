import Mathlib.Data.Finset.Card
import SmalltalkJit.Concurrency.Scheduler

/-! # The ledger of fibers that wait for a descriptor

What the armed-waiter counter is for, apart from the scheduler: fibers wait for
descriptors, the event loop has one registration for each descriptor, and the
poller has the events in hand that have fired and are not applied yet. The
counter counts the waits that have not been applied. Each kind of entry keeps
the ledger right under a condition of its own, and only then.
-/
namespace SmalltalkJit.Concurrency
open Function List Option Event

/-- `waits` has the descriptor that a fiber waits for and the number of the call. -/
structure Ledger where
  bound : ℕ
  waits : ℕ → Option (ℕ × ℕ)
  armed : ℕ
  registrations : ℕ → Option Registration
  hand : List Event

/-- What can happen: a fiber is made; a fiber is resumed, or killed, whether it waits or not; a fiber
begins to wait; registrations fire; the events in hand and some timers are applied. -/
inductive Entry
  | idle
  | spawn
  | wake (id : ℕ)
  | kill (id fd : ℕ)
  | wait (id fd park : ℕ)
  | report (fds : List ℕ)
  | settle (expired : ℕ → Bool)

namespace Ledger
variable (L : Ledger)

def post : Entry → Ledger
  | .idle => L
  | .spawn => { L with bound := L.bound+1 }
  | .wake id => { L with waits := update L.waits id none }
  | .kill id fd =>
    { L with
      waits := update L.waits id none
      registrations := update L.registrations fd none
      armed := L.armed-1 }
  | .wait id fd park =>
    { L with
      waits := update L.waits id (some (fd,park))
      registrations := update L.registrations fd (some ⟨⟨id,park⟩,true⟩)
      armed := L.armed+1 }
  | .report fds =>
    { L with
      registrations := fun fd =>
        if fd ∈ fds then (L.registrations fd).map fun r => { r with live := false }
        else L.registrations fd
      hand := fds.filterMap fun fd => (L.registrations fd).map Registration.event }
  | .settle expired =>
    { L with
      waits := fun id => if id ∈ L.hand.map tag ∨ expired id then none else L.waits id
      armed := L.armed - L.hand.length
      hand := [] }

def Possible : Entry → Prop
  | .kill id fd => ∃ park, L.waits id = some (fd,park)
  | .wait id _ _ => L.waits id = none ∧ id < L.bound
  | .report fds => fds.Nodup ∧ (∀ fd ∈ fds, ∃ e, L.registrations fd = some ⟨e,true⟩) ∧ L.hand = []
  | _ => True

/-- No fiber that waits is resumed by anything but its own event, none is killed while its event is in
hand, and no two wait for one descriptor. -/
def Exclusive : Entry → Prop
  | .wake id => L.waits id = none
  | .kill id _ => ∀ e ∈ L.hand, e.tag ≠ id
  | .wait _ fd _ => ∀ e, L.registrations fd ≠ some ⟨e,true⟩
  | .settle expired => ∀ id, expired id → L.waits id ≠ none → id ∈ L.hand.map tag
  | _ => True

/-- No fiber that waits is resumed by anything but an event. -/
def Patient : Entry → Prop
  | .wake id => L.waits id = none
  | .settle expired => ∀ id, expired id → L.waits id ≠ none → id ∈ L.hand.map tag
  | _ => True

def waiting (bound : ℕ) (waits : ℕ → Option (ℕ × ℕ)) : Finset ℕ :=
  (Finset.range bound).filter fun id => waits id ≠ none

def parked : Finset ℕ := waiting L.bound L.waits

/-- The counter is right, every fiber that waits is registered or its event is in hand, and every
event in hand belongs to the wait that registered it. -/
structure Accounted : Prop where
  count : L.armed = L.parked.card
  armed : ∀ id fd park, L.waits id = some (fd,park) →
    L.registrations fd = some ⟨⟨id,park⟩,true⟩ ∨ ⟨id,park⟩ ∈ L.hand
  own : ∀ e ∈ L.hand, ∃ fd, L.waits e.tag = some (fd,e.park)

/-- What else holds while the ledger has always been right. -/
structure Sound : Prop where
  fresh : ∀ id, L.bound ≤ id → L.waits id = none
  live : ∀ fd e, L.registrations fd = some ⟨e,true⟩ → L.waits e.tag = some (fd,e.park) ∧ e ∉ L.hand
  nodup : (L.hand.map tag).Nodup

variable {waits : ℕ → Option (ℕ × ℕ)} {bound : ℕ}

section Laws
variable {L} {id fd park : ℕ}

theorem mem_waiting : id ∈ waiting bound waits ↔ id < bound ∧ waits id ≠ none := by
  rw [waiting,Finset.mem_filter,Finset.mem_range]

theorem Sound.mem_parked (h : L.Sound) : id ∈ L.parked ↔ L.waits id ≠ none := by
  rw [parked,mem_waiting,and_iff_right_iff_imp]
  intro hw
  by_contra hid
  exact hw (h.fresh id (not_lt.mp hid))

theorem waiting_update_none : waiting bound (update waits id none) = (waiting bound waits).erase id := by
  ext id'
  rw [mem_waiting,Finset.mem_erase,mem_waiting]
  by_cases hid : id' = id
  · subst hid
    simp
  · simp [hid]

theorem waiting_update_some (hid : id < bound) :
    waiting bound (update waits id (some x)) = insert id (waiting bound waits) := by
  ext id'
  rw [mem_waiting,Finset.mem_insert,mem_waiting]
  by_cases hid' : id' = id
  · subst hid'
    simp [hid]
  · simp [hid']

theorem post_wake_eq (h : L.Exclusive (.wake id)) : L.post (.wake id) = L := by
  have hu : update L.waits id none = L.waits := by
    rw [update_eq_iff]
    exact ⟨h.symm,fun _ _ => rfl⟩
  change { L with waits := update L.waits id none } = L
  rw [hu]

section
variable (hs : L.Sound) (h : L.Accounted)
include hs h

theorem post_wake : ((L.post (.wake id)).Accounted ↔ L.Exclusive (.wake id)) ∧
      (L.Exclusive (.wake id) → (L.post (.wake id)).Sound) := by
  refine ⟨⟨fun h' => ?_,fun hw => ?_⟩,fun hw => ?_⟩
  · by_contra hw
    have hmem := hs.mem_parked.mpr hw
    have hc : L.armed = (L.parked.erase id).card := h'.count.trans (congrArg Finset.card waiting_update_none)
    rw [Finset.card_erase_of_mem hmem] at hc
    have hpos := Finset.card_pos.mpr ⟨id,hmem⟩
    have hco := h.count
    omega
  · rwa [post_wake_eq hw]
  · rwa [post_wake_eq hw]

theorem post_spawn : (L.post .spawn).Accounted ∧ (L.post .spawn).Sound := by
  have hp : (L.post .spawn).parked = L.parked := by
    ext id
    rw [parked,mem_waiting,hs.mem_parked]
    refine and_iff_right_iff_imp.mpr fun hw => ?_
    by_contra hid
    exact hw (hs.fresh id (by change ¬ id < L.bound+1 at hid; omega))
  refine ⟨⟨?_,h.armed,h.own⟩,⟨fun id hid => hs.fresh id ?_,hs.live,hs.nodup⟩⟩
  · rw [hp]
    exact h.count
  · change L.bound+1 ≤ id at hid
    omega

theorem post_kill (hw : L.waits id = some (fd,park)) :
    ((L.post (.kill id fd)).Accounted ↔ L.Exclusive (.kill id fd)) ∧
      (L.Exclusive (.kill id fd) → (L.post (.kill id fd)).Sound) := by
  have ho : ∀ {id'}, id' ≠ id → (L.post (.kill id fd)).waits id' = L.waits id' := fun hid => update_of_ne hid _ _
  have hsel : (L.post (.kill id fd)).waits id = none := update_self _ _ _
  refine ⟨⟨fun h' e he htag => ?_,fun hh => ⟨?_,fun id' fd' n' hw' => ?_,fun e he => ?_⟩⟩,
    fun hh => ⟨fun id' hid' => ?_,fun fd' e hl => ?_,hs.nodup⟩⟩
  · obtain ⟨fd',hfd'⟩ := h'.own e he
    rw [htag,hsel] at hfd'
    cases hfd'
  · have hmem := hs.mem_parked.mpr (hw ▸ some_ne_none _)
    have hc : (L.post (.kill id fd)).parked = L.parked.erase id := waiting_update_none
    rw [hc,Finset.card_erase_of_mem hmem,← h.count]
    rfl
  · have hid : id' ≠ id := by
      rintro rfl
      rw [hsel] at hw'
      cases hw'
    rw [ho hid] at hw'
    obtain hl | hmem := h.armed id' fd' n' hw'
    · -- the registration for the descriptor is the one of the fiber that is killed
      have hfd : fd' ≠ fd := by
        rintro rfl
        obtain hl' | hmem' := h.armed id fd' park hw
        · rw [hl] at hl'
          cases hl'
          exact hid rfl
        · exact hh _ hmem' rfl
      exact .inl ((update_of_ne hfd _ _).trans hl)
    · exact .inr hmem
  · rw [ho (hh e he)]
    exact h.own e he
  · by_cases hid : id' = id
    · rw [hid]
      exact hsel
    · rw [ho hid]
      exact hs.fresh id' hid'
  · have hfd : fd' ≠ fd := by
      rintro rfl
      rw [show (L.post (.kill id fd')).registrations fd' = none from update_self _ _ _] at hl
      cases hl
    rw [show (L.post (.kill id fd)).registrations fd' = _ from update_of_ne hfd _ _] at hl
    obtain ⟨hown,hh'⟩ := hs.live fd' e hl
    refine ⟨?_,hh'⟩
    rw [ho,hown]
    intro hid
    rw [hid,hw] at hown
    cases hown
    exact hfd rfl

theorem post_wait (hn : L.waits id = none) (hid : id < L.bound) :
    ((L.post (.wait id fd park)).Accounted ↔ L.Exclusive (.wait id fd park)) ∧
      (L.Exclusive (.wait id fd park) → (L.post (.wait id fd park)).Sound) := by
  have ho : ∀ {id'}, id' ≠ id → (L.post (.wait id fd park)).waits id' = L.waits id' := fun hid => update_of_ne hid _ _
  have hsel : (L.post (.wait id fd park)).waits id = some (fd,park) := update_self _ _ _
  have hfd : (L.post (.wait id fd park)).registrations fd = some ⟨⟨id,park⟩,true⟩ := update_self _ _ _
  have hfds : ∀ {fd'}, fd' ≠ fd → (L.post (.wait id fd park)).registrations fd' = L.registrations fd' :=
    fun hfd => update_of_ne hfd _ _
  have hne : ∀ {e : Event} {x}, L.waits e.tag = some x → e.tag ≠ id := by
    intro e x hw htag
    rw [htag,hn] at hw
    cases hw
  refine ⟨⟨fun h' e hl => ?_,fun hf => ⟨?_,fun id' fd' n' hw' => ?_,fun e he => ?_⟩⟩,
    fun hf => ⟨fun id' hid' => ?_,fun fd' e hl => ?_,hs.nodup⟩⟩
  · -- the fiber that was registered for the descriptor is forgotten
    obtain ⟨hown,hh⟩ := hs.live fd e hl
    obtain hl' | hmem := h'.armed e.tag fd e.park ((ho (hne hown)).trans hown)
    · rw [hfd] at hl'
      exact hne hown (congrArg tag (congrArg Registration.event (Option.some.inj hl'))).symm
    · exact hh hmem
  · have hc : (L.post (.wait id fd park)).parked = insert id L.parked := waiting_update_some hid
    have hmem : id ∉ L.parked := by
      rw [hs.mem_parked,hn]
      simp
    rw [hc,Finset.card_insert_of_notMem hmem,← h.count]
    rfl
  · by_cases hid' : id' = id
    · subst hid'
      rw [hsel] at hw'
      cases hw'
      exact .inl hfd
    · rw [ho hid'] at hw'
      obtain hl | hmem := h.armed id' fd' n' hw'
      · have hne' : fd' ≠ fd := by
          rintro rfl
          exact hf _ hl
        rw [hfds hne']
        exact .inl hl
      · exact .inr hmem
  · obtain ⟨fd',hown⟩ := h.own e he
    rw [ho (hne hown)]
    exact ⟨fd',hown⟩
  · have hid'' : id' ≠ id := by
      rintro rfl
      exact absurd hid (not_lt.mpr hid')
    rw [ho hid'']
    exact hs.fresh id' hid'
  · by_cases hfd' : fd' = fd
    · subst hfd'
      rw [hfd] at hl
      cases hl
      refine ⟨hsel,fun hmem => ?_⟩
      obtain ⟨fd'',hown⟩ := h.own _ hmem
      exact hne hown rfl
    · rw [hfds hfd'] at hl
      obtain ⟨hown,hh⟩ := hs.live fd' e hl
      rw [ho (hne hown)]
      exact ⟨hown,hh⟩

end

theorem mem_reported (hl : ∀ fd ∈ fds, ∃ e, L.registrations fd = some ⟨e,true⟩) :
    e ∈ (L.post (.report fds)).hand ↔ ∃ fd ∈ fds, L.registrations fd = some ⟨e,true⟩ := by
  change e ∈ fds.filterMap _ ↔ _
  rw [mem_filterMap]
  constructor
  · rintro ⟨fd,hfd,he⟩
    obtain ⟨e',he'⟩ := hl fd hfd
    rw [he'] at he
    cases he
    exact ⟨fd,hfd,he'⟩
  · rintro ⟨fd,hfd,he⟩
    exact ⟨fd,hfd,by rw [he]; rfl⟩

theorem post_report (hs : L.Sound) (h : L.Accounted) (hn : fds.Nodup)
    (hl : ∀ fd ∈ fds, ∃ e, L.registrations fd = some ⟨e,true⟩) (hh : L.hand = []) :
    (L.post (.report fds)).Accounted ∧ (L.post (.report fds)).Sound := by
  have hout : ∀ {fd}, fd ∉ fds → (L.post (.report fds)).registrations fd = L.registrations fd := fun hfd => if_neg hfd
  refine ⟨⟨h.count,fun id fd park hw => ?_,fun e he => ?_⟩,⟨hs.fresh,fun fd e hfd => ?_,?_⟩⟩
  · obtain hreg | hmem := h.armed id fd park hw
    · by_cases hfd : fd ∈ fds
      · exact .inr ((mem_reported hl).mpr ⟨fd,hfd,hreg⟩)
      · exact .inl ((hout hfd).trans hreg)
    · rw [hh] at hmem
      cases hmem
  · obtain ⟨fd,-,hreg⟩ := (mem_reported hl).mp he
    exact ⟨fd,(hs.live fd e hreg).1⟩
  · have hnot : fd ∉ fds := by
      intro hmem
      rw [show (L.post (.report fds)).registrations fd = _ from if_pos hmem] at hfd
      obtain ⟨r,-,hr⟩ := map_eq_some_iff.mp hfd
      cases hr
    rw [hout hnot] at hfd
    have hown := (hs.live fd e hfd).1
    refine ⟨hown,fun hmem => ?_⟩
    obtain ⟨fd',hfd',hreg⟩ := (mem_reported hl).mp hmem
    have hown' := (hs.live fd' e hreg).1
    rw [hown] at hown'
    cases hown'
    exact hnot hfd'
  · change List.Nodup ((fds.filterMap _).map tag)
    rw [List.Nodup,pairwise_map,pairwise_filterMap]
    refine hn.imp_of_mem fun {fd fd'} hfd hfd' hne e he e' he' htag => hne ?_
    obtain ⟨e1,hreg⟩ := hl fd hfd
    obtain ⟨e2,hreg'⟩ := hl fd' hfd'
    rw [hreg] at he
    rw [hreg'] at he'
    cases he
    cases he'
    have hown := (hs.live fd e1 hreg).1
    rw [htag,(hs.live fd' e2 hreg').1] at hown
    exact (congrArg Prod.fst (Option.some.inj hown)).symm

theorem parked_settle : (L.post (.settle expired)).parked =
    (L.parked \ (L.hand.map tag).toFinset).filter fun id => expired id = false := by
  ext id
  rw [parked,mem_waiting,Finset.mem_filter,Finset.mem_sdiff,List.mem_toFinset,parked,mem_waiting]
  change id < L.bound ∧ (if id ∈ L.hand.map tag ∨ expired id then none else L.waits id) ≠ none ↔ _
  split
  · next hg =>
    refine iff_of_false (fun h => h.2 rfl) fun h => ?_
    obtain hmem | he := hg
    · exact h.1.2 hmem
    · rw [h.2] at he
      cases he
  · next hg =>
    rw [not_or,Bool.not_eq_true] at hg
    exact ⟨fun h => ⟨⟨h,hg.1⟩,hg.2⟩,fun h => h.1.1⟩

theorem post_settle (hs : L.Sound) (h : L.Accounted) :
    ((L.post (.settle expired)).Accounted ↔ L.Exclusive (.settle expired)) ∧
      (L.Exclusive (.settle expired) → (L.post (.settle expired)).Sound) := by
  have hsub : (L.hand.map tag).toFinset ⊆ L.parked := by
    intro id hid
    obtain ⟨e,he,rfl⟩ := mem_map.mp (mem_toFinset.mp hid)
    obtain ⟨fd,hown⟩ := h.own e he
    exact hs.mem_parked.mpr (hown ▸ some_ne_none _)
  have hca : (L.post (.settle expired)).armed = (L.parked \ (L.hand.map tag).toFinset).card := by
    rw [Finset.card_sdiff_of_subset hsub,toFinset_card_of_nodup hs.nodup,length_map,← h.count]
    rfl
  -- a fiber that waits was not resumed
  have hk : ∀ {id x}, (L.post (.settle expired)).waits id = some x → L.waits id = some x ∧ id ∉ L.hand.map tag := by
    intro id x hw
    change (if id ∈ L.hand.map tag ∨ expired id then none else L.waits id) = some x at hw
    split at hw
    · cases hw
    · next hg => exact ⟨hw,fun hid => hg (.inl hid)⟩
  have ha : ∀ id fd park, (L.post (.settle expired)).waits id = some (fd,park) →
      L.registrations fd = some ⟨⟨id,park⟩,true⟩ ∨ ⟨id,park⟩ ∈ ([] : List Event) := by
    intro id fd park hw
    obtain ⟨hw,hid⟩ := hk hw
    obtain hl | hmem := h.armed id fd park hw
    · exact .inl hl
    · exact absurd (mem_map_of_mem hmem) hid
  have hc : (L.post (.settle expired)).armed = (L.post (.settle expired)).parked.card ↔
      L.Exclusive (.settle expired) := by
    rw [hca,parked_settle,eq_comm,Finset.card_filter_eq_iff]
    constructor
    · intro hall id hex hw
      by_contra hid
      have hf := hall id (Finset.mem_sdiff.mpr ⟨hs.mem_parked.mpr hw,fun hmem => hid (mem_toFinset.mp hmem)⟩)
      rw [hex] at hf
      cases hf
    · intro hexc id hid
      obtain ⟨hmem,hh⟩ := Finset.mem_sdiff.mp hid
      by_contra hex
      exact hh (mem_toFinset.mpr (hexc id (Bool.not_eq_false _ ▸ hex) (hs.mem_parked.mp hmem)))
  refine ⟨⟨fun h' => hc.mp h'.count,fun hexc => ⟨hc.mpr hexc,ha,?_⟩⟩,
    fun hexc => ⟨fun id hid => ?_,fun fd e hl => ⟨?_,by simp [post]⟩,nodup_nil⟩⟩
  · intro e he
    cases he
  · change (if id ∈ L.hand.map tag ∨ expired id then none else L.waits id) = none
    rw [hs.fresh id hid,ite_self]
  · obtain ⟨hown,hh⟩ := hs.live fd e hl
    change (if e.tag ∈ L.hand.map tag ∨ expired e.tag then none else L.waits e.tag) = _
    -- the fiber of a live registration is neither in hand nor resumed by a timer
    have hnot : e.tag ∉ L.hand.map tag := by
      intro hmem
      obtain ⟨e',he',htag⟩ := mem_map.mp hmem
      obtain ⟨fd',hown'⟩ := h.own e' he'
      obtain rfl : e = e' := by
        cases e
        cases e'
        simp_all
      exact hh he'
    rw [if_neg,hown]
    rintro (hmem | hex)
    · exact hnot hmem
    · exact hnot (hexc e.tag hex (hown ▸ some_ne_none _))

/-- An entry keeps the ledger right exactly when it is exclusive. -/
theorem post_iff (hs : L.Sound) (h : L.Accounted) (hp : L.Possible entry) :
    ((L.post entry).Accounted ↔ L.Exclusive entry) ∧ (L.Exclusive entry → (L.post entry).Sound) := by
  cases entry with
  | idle => exact ⟨iff_of_true h trivial,fun _ => hs⟩
  | spawn => exact ⟨iff_of_true (post_spawn hs h).1 trivial,fun _ => (post_spawn hs h).2⟩
  | wake => exact post_wake hs h
  | kill =>
    obtain ⟨park,hw⟩ := hp
    exact post_kill hs h hw
  | wait => exact post_wait hs h hp.1 hp.2
  | report =>
    obtain ⟨ha,hso⟩ := post_report hs h hp.1 hp.2.1 hp.2.2
    exact ⟨iff_of_true ha trivial,fun _ => hso⟩
  | settle => exact post_settle hs h

theorem armed_le_post (h : L.armed ≤ L.parked.card) (hp : L.Possible entry)
    (hpa : L.Patient entry) : (L.post entry).armed ≤ (L.post entry).parked.card := by
  cases entry with
  | idle | report => exact h
  | spawn =>
    refine h.trans (Finset.card_le_card fun id hid => ?_)
    obtain ⟨hlt,hw⟩ := mem_waiting.mp hid
    exact mem_waiting.mpr ⟨Nat.lt_succ_of_lt hlt,hw⟩
  | wake => rwa [post_wake_eq hpa]
  | kill id fd =>
    have hc : (L.post (.kill id fd)).parked = L.parked.erase id := waiting_update_none
    have hpre := Finset.pred_card_le_card_erase (s := L.parked) (a := id)
    rw [hc]
    change L.armed-1 ≤ _
    omega
  | wait id fd park =>
    have hc : (L.post (.wait id fd park)).parked = insert id L.parked := waiting_update_some hp.2
    have hmem : id ∉ L.parked := by
      intro hid
      exact (mem_waiting.mp hid).2 hp.1
    rw [hc,Finset.card_insert_of_notMem hmem]
    exact Nat.succ_le_succ h
  | settle expired =>
    -- the timers wake no fiber that an event does not wake
    have hk : L.parked \ (L.hand.map tag).toFinset ⊆ (L.post (.settle expired)).parked := by
      intro id hid
      rw [parked_settle,Finset.mem_filter]
      refine ⟨hid,?_⟩
      obtain ⟨hpar,hh⟩ := Finset.mem_sdiff.mp hid
      by_contra he
      exact hh (mem_toFinset.mpr (hpa id (Bool.not_eq_false _ ▸ he) (mem_waiting.mp hpar).2))
    have hc := Finset.le_card_sdiff (L.hand.map tag).toFinset L.parked
    have hl := toFinset_card_le (L.hand.map tag)
    have hle := Finset.card_le_card hk
    rw [length_map] at hl
    change L.armed - L.hand.length ≤ _
    omega

end Laws

end Ledger

end SmalltalkJit.Concurrency
