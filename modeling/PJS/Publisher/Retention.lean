import PJS.Lib.Newest
import PJS.Publisher.EventLog

/-! What the event log keeps. Evictions that overlap work from snapshots that are out of date; each
removes only events with enough later events in the log, so the newest ones stay. -/
namespace PJS.InMemoryEventPublisher

open Newest Relation

variable {ε : Type*} {s s' : History ε} {c c' d : Call ε}

section Sequences

def sequences (events : List (StoredEvent ε)) : Finset ℕ :=
  (events.map (·.sequence)).toFinset

theorem mem_sequences {events : List (StoredEvent ε)} {q : ℕ} :
    q ∈ sequences events ↔ ∃ e ∈ events, e.sequence = q := by
  rw [sequences, List.mem_toFinset, List.mem_map]

theorem sequences_mono {l l' : List (StoredEvent ε)} (h : ∀ e ∈ l, e ∈ l') :
    sequences l ⊆ sequences l' := by
  intro q hq
  obtain ⟨e, he, rfl⟩ := mem_sequences.mp hq
  exact mem_sequences.mpr ⟨e, h e he, rfl⟩

theorem sequences_concat (l : List (StoredEvent ε)) (e : StoredEvent ε) :
    sequences (l ++ [e]) = insert e.sequence (sequences l) := by
  ext q
  simp only [sequences, List.map_append, List.mem_toFinset, List.mem_append, Finset.mem_insert,
    List.map_cons, List.map_nil, List.mem_singleton]
  exact or_comm

theorem mem_sequences_values {log : AssocMap EventId (StoredEvent ε)} {q : ℕ} :
    q ∈ sequences log.values ↔ ∃ id e, log.get? id = some e ∧ e.sequence = q := by
  rw [mem_sequences]
  constructor
  · rintro ⟨e, he, hq⟩
    obtain ⟨id, hid⟩ := AssocMap.exists_get?_of_mem_values he
    exact ⟨id, e, hid, hq⟩
  · rintro ⟨id, e, hid, hq⟩
    exact ⟨e, AssocMap.mem_values_of_get? hid, hq⟩

end Sequences

section Shared

/-- Identifiers and sequences are unique, and the log keeps the newest events. -/
structure History.Sound (s : History ε) : Prop where
  ids : (s.published.map (·.id)).Nodup
  distinct : (s.published.map (·.sequence)).Nodup
  below : ∀ e ∈ s.published, e.sequence < s.nextSequence
  logged : ∀ id e, s.eventLog.get? id = some e → e.id = id ∧ e ∈ s.published
  keeps : Keeps eventLogEvictTarget (sequences s.published) (sequences s.eventLog.values)

theorem History.Sound.eq_of_sequence (h : s.Sound) {e f : StoredEvent ε} (he : e ∈ s.published)
    (hf : f ∈ s.published) (hq : e.sequence = f.sequence) : e = f :=
  List.inj_on_of_nodup_map h.distinct he hf hq

theorem History.Sound.eq_of_id (h : s.Sound) {e f : StoredEvent ε} (he : e ∈ s.published)
    (hf : f ∈ s.published) (hid : e.id = f.id) : e = f :=
  List.inj_on_of_nodup_map h.ids he hf hid

theorem History.Sound.mem_published (h : s.Sound) {e : StoredEvent ε}
    (he : e ∈ s.eventLog.values) : e ∈ s.published := by
  obtain ⟨id, hid⟩ := AssocMap.exists_get?_of_mem_values he
  exact (h.logged id e hid).2

theorem History.Sound.advance (h : s.Sound) {n : ℕ} (hn : s.nextSequence ≤ n) :
    History.Sound { s with nextSequence := n } :=
  { h with below := fun e he => (h.below e he).trans_le hn }

theorem History.Sound.store (h : s.Sound) {stored : StoredEvent ε}
    (hid : ∀ e ∈ s.published, e.id ≠ stored.id)
    (hq : ∀ e ∈ s.published, e.sequence ≠ stored.sequence)
    (hlt : stored.sequence < s.nextSequence) : (s.store stored).Sound := by
  have hnone : s.eventLog.get? stored.id = none := by
    refine Option.eq_none_iff_forall_ne_some.mpr fun e he => ?_
    obtain ⟨hkey, hmem⟩ := h.logged _ _ he
    exact hid e hmem hkey
  have hvalues : (s.store stored).eventLog.values = s.eventLog.values ++ [stored] :=
    AssocMap.values_insert_of_none hnone stored
  refine ⟨Lists.nodup_map_concat h.ids hid, Lists.nodup_map_concat h.distinct hq,
    fun e he => ?_, fun id e he => ?_, ?_⟩
  · rcases List.mem_append.mp he with he | he
    · exact h.below e he
    · rw [List.mem_singleton.mp he]
      exact hlt
  · change (s.eventLog.insert stored.id stored).get? id = some e at he
    rw [AssocMap.get?_insert] at he
    split_ifs at he with hj
    · cases he
      exact ⟨hj.symm, List.mem_append_right _ (List.mem_singleton_self stored)⟩
    · obtain ⟨hkey, hmem⟩ := h.logged id e he
      exact ⟨hkey, List.mem_append_left _ hmem⟩
  · rw [hvalues, sequences_concat]
    change Keeps _ (sequences (s.published ++ [stored])) _
    rw [sequences_concat]
    exact h.keeps.insert stored.sequence

/-- Taking one event out of the log takes one sequence out. -/
theorem History.Sound.sequences_erase (h : s.Sound) {e : StoredEvent ε} (he : e ∈ s.published) :
    sequences (s.eventLog.erase e.id).values = (sequences s.eventLog.values).erase e.sequence := by
  ext q
  rw [Finset.mem_erase, mem_sequences_values, mem_sequences_values]
  constructor
  · rintro ⟨id, f, hf, rfl⟩
    rw [AssocMap.get?_erase] at hf
    split_ifs at hf with hid
    obtain ⟨hkey, hmem⟩ := h.logged id f hf
    refine ⟨fun hq => hid ?_, id, f, hf, rfl⟩
    rw [← hkey, h.eq_of_sequence hmem he hq]
  · rintro ⟨hq, id, f, hf, rfl⟩
    obtain ⟨hkey, hmem⟩ := h.logged id f hf
    refine ⟨id, f, ?_, rfl⟩
    rw [AssocMap.get?_erase, if_neg fun hid => hq ?_]
    · exact hf
    · rw [h.eq_of_id hmem he (hkey.trans hid)]

theorem History.Sound.erase (h : s.Sound) {e : StoredEvent ε} (he : e ∈ s.published)
    (hlater : eventLogEvictTarget ≤ (above (sequences s.published) e.sequence).card) :
    History.Sound { s with eventLog := s.eventLog.erase e.id } := by
  refine { h with logged := fun id f hf => ?_, keeps := ?_ }
  · rw [AssocMap.get?_erase] at hf
    split_ifs at hf
    exact h.logged id f hf
  · change Keeps _ _ (sequences (s.eventLog.erase e.id).values)
    rw [h.sequences_erase he]
    exact h.keeps.erase hlater

end Shared

section Calls

/-- What a call relies on: its block of sequences, the positions it still has to insert, what its
iteration has visited, and that the events it is about to remove are old. -/
structure Call.Sound (s : History ε) (c : Call ε) : Prop where
  reserved : c.phase ≠ .reserving → c.baseSequence + c.events.length ≤ s.nextSequence
  waiting : ∀ pending, c.phase = .inserting pending → ∀ position ∈ pending,
    position < c.events.length ∧ ∀ e ∈ s.published, e.sequence ≠ c.baseSequence + position
  stored : c.phase ≠ .reserving → ∀ position event, c.events[position]? = some event →
    (∃ pending, c.phase = .inserting pending ∧ position ∈ pending) ∨
      ∃ e ∈ s.published, e.event = event ∧ e.sequence = c.baseSequence + position
  visited : ∀ start bySequence, c.phase = .collecting start bySequence →
    (bySequence.map Prod.fst).Nodup ∧
      ∀ v ∈ bySequence, ∃ e ∈ s.published, e.id = v.1 ∧ e.sequence = v.2
  condemned : ∀ keys, c.phase = .removing keys → ∀ id ∈ keys, ∃ e ∈ s.published,
    e.id = id ∧ eventLogEvictTarget ≤ (above (sequences s.published) e.sequence).card

/-- The blocks of two calls do not overlap. -/
def Call.Apart (c d : Call ε) : Prop :=
  c.phase ≠ .reserving → d.phase ≠ .reserving →
    c.baseSequence + c.events.length ≤ d.baseSequence ∨
      d.baseSequence + d.events.length ≤ c.baseSequence

/-- More events may be stored, as long as none takes a sequence the call still has to use. -/
theorem Call.Sound.mono (h : c.Sound s) (hnext : s.nextSequence ≤ s'.nextSequence)
    (hsub : ∀ e ∈ s.published, e ∈ s'.published)
    (hnew : ∀ pending, c.phase = .inserting pending → ∀ position ∈ pending,
      ∀ e ∈ s'.published, e ∉ s.published → e.sequence ≠ c.baseSequence + position) :
    c.Sound s' := by
  refine ⟨fun hc => (h.reserved hc).trans hnext, fun pending hp position hmem => ?_,
    fun hc position event he => ?_, fun start bySequence hp => ?_, fun keys hp id hid => ?_⟩
  · obtain ⟨hlt, hfree⟩ := h.waiting pending hp position hmem
    refine ⟨hlt, fun e he => ?_⟩
    by_cases hold : e ∈ s.published
    · exact hfree e hold
    · exact hnew pending hp position hmem e he hold
  · refine (h.stored hc position event he).imp_right ?_
    rintro ⟨e, he, heq⟩
    exact ⟨e, hsub e he, heq⟩
  · obtain ⟨hnodup, hvisited⟩ := h.visited start bySequence hp
    refine ⟨hnodup, fun v hv => ?_⟩
    obtain ⟨e, he, heq⟩ := hvisited v hv
    exact ⟨e, hsub e he, heq⟩
  · obtain ⟨e, he, hkey, hlater⟩ := h.condemned keys hp id hid
    exact ⟨e, hsub e he, hkey,
      hlater.trans (Finset.card_le_card (above_mono (sequences_mono hsub) e.sequence))⟩

end Calls

section Excess

theorem pairwise_insertionSort_lt {l : List (EventId × ℕ)} (hn : (l.map Prod.snd).Nodup) :
    (l.insertionSort fun a b => a.2 ≤ b.2).Pairwise fun a b => a.2 < b.2 := by
  have hperm := List.perm_insertionSort (fun a b : EventId × ℕ => a.2 ≤ b.2) l
  have : Std.Total fun a b : EventId × ℕ => a.2 ≤ b.2 := ⟨fun a b => le_total a.2 b.2⟩
  have : IsTrans (EventId × ℕ) fun a b => a.2 ≤ b.2 := ⟨fun _ _ _ => le_trans⟩
  have hle := List.pairwise_insertionSort (fun a b : EventId × ℕ => a.2 ≤ b.2) l
  have hne : (l.insertionSort fun a b => a.2 ≤ b.2).Pairwise fun a b => a.2 ≠ b.2 := by
    rw [← List.pairwise_map (f := Prod.snd) (R := (· ≠ ·))]
    exact (hperm.map Prod.snd).nodup_iff.mpr hn
  exact hle.imp₂ (fun _ _ => lt_of_le_of_ne) hne

/-- What an eviction removes has enough later events in its snapshot. -/
theorem later_of_mem_excess {bySequence : List (EventId × ℕ)}
    (hn : (bySequence.map Prod.snd).Nodup) {id : EventId} (h : id ∈ excess bySequence) :
    ∃ q, (id, q) ∈ bySequence ∧
      eventLogEvictTarget ≤ (above (bySequence.map Prod.snd).toFinset q).card := by
  have hperm := List.perm_insertionSort (fun a b : EventId × ℕ => a.2 ≤ b.2) bySequence
  obtain ⟨⟨_, q⟩, hv, rfl⟩ := List.mem_map.mp h
  refine ⟨q, hperm.mem_iff.mp (List.mem_of_mem_take hv), ?_⟩
  rw [← hperm.length_eq] at hv
  have hle := le_card_above_of_mem_take (pairwise_insertionSort_lt hn) hv
  rwa [List.toFinset_eq_of_perm _ _ (hperm.map Prod.snd)] at hle

/-- What an eviction does not remove from the keys it has visited fits the target. -/
theorem length_filter_notMem_excess {bySequence : List (EventId × ℕ)} {keys : List EventId}
    (hn : keys.Nodup) (hsub : ∀ id ∈ keys, id ∈ bySequence.map Prod.fst) :
    (keys.filter (· ∉ excess bySequence)).length ≤ eventLogEvictTarget := by
  set sorted := bySequence.insertionSort fun a b => a.2 ≤ b.2 with hsorted
  set n := bySequence.length - eventLogEvictTarget with hn'
  have hperm := List.perm_insertionSort (fun a b : EventId × ℕ => a.2 ≤ b.2) bySequence
  have hlen : ((sorted.drop n).map Prod.fst).length ≤ eventLogEvictTarget := by
    have hlength : sorted.length = bySequence.length := hperm.length_eq
    rw [List.length_map, List.length_drop]
    omega
  refine (List.subperm_of_subset (hn.filter _) fun id hid => ?_).length_le.trans hlen
  obtain ⟨hid, hkept⟩ := List.mem_filter.mp hid
  have hmem : id ∈ (sorted.take n ++ sorted.drop n).map Prod.fst := by
    rw [List.take_append_drop]
    exact (hperm.map Prod.fst).mem_iff.mpr (hsub id hid)
  rw [List.map_append, List.mem_append] at hmem
  exact hmem.resolve_left (of_decide_eq_true hkept)

end Excess

section Steps

/-- With every position inserted, only what the call is about to do matters. -/
theorem Call.Sound.move {events : List ε} {base : ℕ} {phase phase' : Phase}
    (h : Call.Sound s ⟨events, base, phase⟩) (hphase : phase ≠ .reserving)
    (hall : ∀ pending, phase = .inserting pending → pending = [])
    (hphase' : ∀ pending, phase' ≠ .inserting pending)
    (hvisited : ∀ start bySequence, phase' = .collecting start bySequence →
      (bySequence.map Prod.fst).Nodup ∧
        ∀ v ∈ bySequence, ∃ e ∈ s.published, e.id = v.1 ∧ e.sequence = v.2)
    (hcondemned : ∀ keys, phase' = .removing keys → ∀ id ∈ keys, ∃ e ∈ s.published,
      e.id = id ∧ eventLogEvictTarget ≤ (above (sequences s.published) e.sequence).card) :
    Call.Sound s ⟨events, base, phase'⟩ := by
  refine ⟨fun _ => h.reserved hphase, fun pending hp => absurd hp (hphase' pending),
    fun _ position event he => Or.inr ?_, hvisited, hcondemned⟩
  refine (h.stored hphase position event he).resolve_left ?_
  rintro ⟨pending, hp, hmem⟩
  rw [hall pending hp] at hmem
  exact absurd hmem List.not_mem_nil

theorem Call.Step.own (hs : s.Sound) (hc : c.Sound s) (h : Call.Step s c s' c') :
    s'.Sound ∧ c'.Sound s' := by
  cases h with
  | @reserve events base =>
    refine ⟨hs.advance (Nat.le_add_right _ _), fun _ => le_rfl, fun pending hp position hmem => ?_,
      fun _ position event he => Or.inl ⟨_, rfl, ?_⟩, fun _ _ hp => (by cases hp),
      fun _ hp => by cases hp⟩
    · cases hp
      refine ⟨List.mem_range.mp hmem, fun e he hq => ?_⟩
      have hlt := hs.below e he
      change e.sequence = s.nextSequence + position at hq
      omega
    · exact List.mem_range.mpr (List.getElem?_eq_some_iff.mp he).1
  | @insert events base position pending event id hpending hevent hid =>
    obtain ⟨hlt, hfree⟩ := hc.waiting pending rfl position hpending
    have hblock : base + events.length ≤ s.nextSequence := hc.reserved (by simp)
    have hsound := @History.Sound.store _ _ hs ⟨id, event, base + position⟩ hid hfree
      (show base + position < s.nextSequence by simp only at hlt; omega)
    refine ⟨hsound, fun _ => hblock, fun pending' hp position' hmem => ?_,
      fun _ position' event' he => ?_, fun _ _ hp => (by cases hp), fun _ hp => by cases hp⟩
    · cases hp
      obtain ⟨hmem, hne⟩ := List.mem_filter.mp hmem
      obtain ⟨hlt', hfree'⟩ := hc.waiting pending rfl position' hmem
      refine ⟨hlt', fun e he => ?_⟩
      rcases List.mem_append.mp he with he | he
      · exact hfree' e he
      · rw [List.mem_singleton.mp he]
        have hne' := of_decide_eq_true hne
        change base + position ≠ base + position'
        omega
    · by_cases hpos : position' = position
      · subst hpos
        refine Or.inr ⟨_, List.mem_append_right _ (List.mem_singleton_self _), ?_, rfl⟩
        exact Option.some.inj (hevent.symm.trans he)
      · rcases hc.stored (by simp) position' event' he with ⟨pending', hp, hmem⟩ | ⟨e, he, heq⟩
        · cases hp
          exact Or.inl ⟨_, rfl, List.mem_filter.mpr ⟨hmem, decide_eq_true hpos⟩⟩
        · exact Or.inr ⟨e, List.mem_append_left _ he, heq⟩
  | underCapacity hsize =>
    refine ⟨hs, hc.move (by simp) (fun _ hp => by cases hp; rfl) (by simp)
      (fun _ _ hp => by cases hp) fun keys hp id hid => ?_⟩
    cases hp
    exact absurd hid List.not_mem_nil
  | overCapacity hsize =>
    refine ⟨hs, hc.move (by simp) (fun _ hp => by cases hp; rfl) (by simp)
      (fun start bySequence hp => ?_) fun _ hp => by cases hp⟩
    cases hp
    exact ⟨List.nodup_nil, by simp⟩
  | @visit events base start bySequence id stored hstored hnew =>
    obtain ⟨hnodup, hvisited⟩ := hc.visited start bySequence rfl
    refine ⟨hs, hc.move (by simp) (fun _ hp => by cases hp) (by simp)
      (fun start' bySequence' hp => ?_) fun _ hp => by cases hp⟩
    cases hp
    refine ⟨Lists.nodup_map_concat hnodup fun v hv hkey => hnew ?_, fun v hv => ?_⟩
    · rw [← show v.1 = id from hkey]
      exact List.mem_map_of_mem hv
    rcases List.mem_append.mp hv with hv | hv
    · exact hvisited v hv
    · rw [List.mem_singleton.mp hv]
      obtain ⟨hkey, hmem⟩ := hs.logged id stored hstored
      exact ⟨stored, hmem, hkey, rfl⟩
  | @sort events base start bySequence hall =>
    obtain ⟨hnodup, hvisited⟩ := hc.visited start bySequence rfl
    -- distinct keys have distinct sequences
    have hdistinct : (bySequence.map Prod.snd).Nodup := by
      refine List.Nodup.map_on (fun v hv w hw hq => ?_) (List.Nodup.of_map _ hnodup)
      obtain ⟨e, he, hkey, hseq⟩ := hvisited v hv
      obtain ⟨f, hf, hkey', hseq'⟩ := hvisited w hw
      have hef : e = f := hs.eq_of_sequence he hf (by rw [hseq, hseq', hq])
      exact Prod.ext (by rw [← hkey, ← hkey', hef]) hq
    refine ⟨hs, hc.move (by simp) (fun _ hp => by cases hp) (by simp)
      (fun _ _ hp => by cases hp) fun keys hp id hid => ?_⟩
    rw [← Phase.removing.inj hp] at hid
    obtain ⟨q, hmem, hlater⟩ := later_of_mem_excess hdistinct hid
    obtain ⟨e, he, hkey, hseq⟩ := hvisited _ hmem
    refine ⟨e, he, hkey, hlater.trans ?_⟩
    rw [hseq]
    refine Finset.card_le_card (above_mono (fun r hr => ?_) q)
    obtain ⟨v, hv, rfl⟩ := List.mem_map.mp (List.mem_toFinset.mp hr)
    obtain ⟨f, hf, -, hfseq⟩ := hvisited v hv
    exact mem_sequences.mpr ⟨f, hf, hfseq⟩
  | @remove events base id keys =>
    obtain ⟨e, he, rfl, hlater⟩ := hc.condemned _ rfl id List.mem_cons_self
    have hmono : Call.Sound { s with eventLog := s.eventLog.erase e.id }
        ⟨events, base, .removing (e.id :: keys)⟩ :=
      hc.mono le_rfl (fun _ => id) fun _ hp => by cases hp
    refine ⟨hs.erase he hlater, hmono.move (by simp) (fun _ hp => by cases hp) (by simp)
      (fun _ _ hp => by cases hp) fun keys' hp id hid => ?_⟩
    cases hp
    exact hmono.condemned _ rfl id (List.mem_cons_of_mem _ hid)

theorem Call.Step.other (hc : c.Sound s) (hd : d.Sound s) (hcd : c.Apart d)
    (h : Call.Step s c s' c') : d.Sound s' ∧ c'.Apart d := by
  cases h with
  | reserve =>
    refine ⟨hd.mono (Nat.le_add_right _ _) (fun _ => id) fun _ _ _ _ e he hnot => absurd he hnot,
      fun _ hphase => Or.inr (hd.reserved hphase)⟩
  | @insert events base position pending event id hpending hevent hid =>
    refine ⟨hd.mono le_rfl (fun _ => List.mem_append_left _) fun pending' hp position' hmem e he
      hnot => ?_, fun _ hphase => hcd (by simp) hphase⟩
    have hlt := (hc.waiting pending rfl position hpending).1
    have hlt' := (hd.waiting pending' hp position' hmem).1
    rcases List.mem_append.mp he with he | he
    · exact absurd he hnot
    · rw [List.mem_singleton.mp he]
      have hblocks := hcd (by simp) (by rw [hp]; simp)
      simp only at hblocks hlt ⊢
      omega
  | underCapacity | overCapacity | visit | sort =>
    exact ⟨hd, fun _ hphase => hcd (by simp) hphase⟩
  | remove =>
    exact ⟨hd.mono le_rfl (fun _ => id) fun _ _ _ _ e he hnot => absurd he hnot,
      fun _ hphase => hcd (by simp) hphase⟩

theorem outline : Pool.Outline (Call.Starts (ε := ε)) Call.Step History.Sound
    (fun s c => c.Sound s) Call.Apart where
  symm := fun h hd hc => (h hc hd).symm
  begins := by
    rintro s _ - ⟨events, rfl⟩
    refine ⟨fun hp => absurd rfl hp, fun _ hp => (by cases hp), fun hp => absurd rfl hp,
      fun _ _ hp => (by cases hp), fun _ hp => by cases hp⟩
  begins_apart := by
    rintro s _ u ⟨events, rfl⟩ - - hp
    exact absurd rfl hp
  own := Call.Step.own
  other := fun _ => Call.Step.other

theorem sound_new : (History.mk (.new : InMemoryEventPublisher ε) []).Sound :=
  ⟨List.nodup_nil, List.nodup_nil, by simp, fun id e h => (by cases h), keeps_refl _ _⟩

theorem System.sound {p : System ε} (h : ReflTransGen System.Step .new p) :
    Pool.Holds History.Sound (fun s c => Call.Sound s c) Call.Apart p :=
  outline.reachable (Pool.holds_nil sound_new) h

/-- An event that a step takes out of the log has enough later events left in it. -/
theorem Call.Step.later (hs : s.Sound) (hc : c.Sound s) (h : Call.Step s c s' c')
    {e : StoredEvent ε} (he : e ∈ s.eventLog.values) (hgone : e ∉ s'.eventLog.values) :
    eventLogEvictTarget ≤ (above (sequences s'.eventLog.values) e.sequence).card := by
  have hs' := (h.own hs hc).1
  have hmem := hs.mem_published he
  have hmem' : e ∈ s'.published := by
    cases h with
    | insert => exact List.mem_append_left _ hmem
    | reserve | underCapacity | overCapacity | visit | sort | remove => exact hmem
  refine hs'.keeps.le_card_above (hs'.keeps.missing e.sequence
    (mem_sequences.mpr ⟨e, hmem', rfl⟩) fun hin => hgone ?_)
  obtain ⟨f, hf, hseq⟩ := mem_sequences.mp hin
  rwa [← hs'.eq_of_sequence (hs'.mem_published hf) hmem' hseq]

end Steps

section Trimming

/-- The call will still bring the log down to its capacity. -/
def Call.Responsible (s : History ε) (c : Call ε) : Prop :=
  match c.phase with
  | .reserving => False
  | .inserting _ => True
  | .collecting start _ => ∀ id ∈ s.eventLog.keys, id ∈ start
  | .removing keys => (s.eventLog.keys.filter (· ∉ keys)).length ≤ eventLogEvictTarget

theorem Call.Responsible.mono (h : c.Responsible s)
    (hsub : s'.eventLog.keys.Sublist s.eventLog.keys) : c.Responsible s' := by
  obtain ⟨events, base, phase⟩ := c
  cases phase with
  | reserving => exact h
  | inserting pending => exact h
  | collecting start bySequence => exact fun id hid => h id (hsub.subset hid)
  | removing keys => exact (hsub.filter _).length_le.trans h

/-- Only an insertion adds to the log. -/
theorem Call.Step.keys_sublist (h : Call.Step s c s' c') :
    s'.eventLog.keys.Sublist s.eventLog.keys ∨ ∃ pending, c'.phase = .inserting pending := by
  cases h with
  | insert => exact Or.inr ⟨_, rfl⟩
  | reserve | underCapacity | overCapacity | visit | sort => exact Or.inl (List.Sublist.refl _)
  | remove =>
    refine Or.inl ?_
    rw [AssocMap.keys_erase]
    exact List.filter_sublist

theorem length_keys (log : AssocMap EventId (StoredEvent ε)) : log.keys.length = log.size :=
  List.length_map _

theorem Call.Responsible.step (hc : c.Responsible s) (h : Call.Step s c s' c') :
    s'.eventLog.size ≤ eventLogCapacity ∨ c'.Responsible s' := by
  cases h with
  | reserve => exact hc.elim
  | insert => exact Or.inr trivial
  | underCapacity hsize => exact Or.inl hsize
  | overCapacity hsize => exact Or.inr fun id hid => hid
  | visit => exact Or.inr hc
  | sort hall =>
    exact Or.inr (length_filter_notMem_excess s.eventLog.nodup fun id hid => hall id (hc id hid) hid)
  | @remove events base id keys =>
    refine Or.inr ?_
    change ((s.eventLog.erase id).keys.filter (· ∉ keys)).length ≤ _
    rw [AssocMap.keys_erase, List.filter_filter]
    refine (congrArg List.length (List.filter_congr fun j _ => ?_)).trans_le hc
    by_cases hj : j = id <;> simp [hj]

def System.Trimmed (p : System ε) : Prop :=
  p.shared.eventLog.size ≤ eventLogCapacity ∨ ∃ c ∈ p.calls, c.Responsible p.shared

theorem System.Step.trimmed {p q : System ε} (hp : p.Trimmed) (h : System.Step p q) :
    q.Trimmed := by
  cases h with
  | start h =>
    refine hp.imp_right ?_
    rintro ⟨c, hc, hresp⟩
    exact ⟨c, List.mem_append_left _ hc, hresp⟩
  | @step s s' l r c c' h =>
    rcases h.keys_sublist with hsub | ⟨pending, hphase⟩
    · rcases hp with hsize | ⟨d, hd, hresp⟩
      · refine Or.inl (le_trans ?_ hsize)
        rw [← length_keys, ← length_keys]
        exact hsub.length_le
      · rcases List.mem_append.mp hd with hd | hd
        · exact Or.inr ⟨d, List.mem_append_left _ hd, hresp.mono hsub⟩
        · rcases List.mem_cons.mp hd with rfl | hd
          · exact (hresp.step h).imp_right fun hresp' => ⟨c', by simp, hresp'⟩
          · exact Or.inr ⟨d, List.mem_append_right _ (List.mem_cons_of_mem _ hd), hresp.mono hsub⟩
    · refine Or.inr ⟨c', by simp, ?_⟩
      rw [Call.Responsible, hphase]
      trivial

theorem System.trimmed {p : System ε} (h : ReflTransGen System.Step .new p) : p.Trimmed := by
  induction h with
  | refl => exact Or.inl (Nat.zero_le _)
  | tail _ hstep ih => exact hstep.trimmed ih

theorem System.size_le {p : System ε} (h : ReflTransGen System.Step .new p) (hidle : p.Idle) :
    p.shared.eventLog.size ≤ eventLogCapacity := by
  rcases System.trimmed h with hsize | ⟨c, hc, hresp⟩
  · exact hsize
  · rw [Call.Responsible, hidle c hc] at hresp
    simp only [List.not_mem_nil, not_false_eq_true, decide_true, List.filter_true] at hresp
    rw [← length_keys]
    exact hresp.trans (by decide)

end Trimming

section Progress

/-- Some identifier belongs to no stored event. -/
theorem exists_fresh (h : s.published.length < 2 ^ 128) :
    ∃ id : EventId, ∀ e ∈ s.published, e.id ≠ id := by
  by_contra hall
  push Not at hall
  have hsub : (Finset.univ : Finset (Fin (2 ^ 128))).image BitVec.ofFin ⊆
      (s.published.map (·.id)).toFinset := by
    intro id _
    obtain ⟨e, he, hid⟩ := hall id
    exact List.mem_toFinset.mpr (List.mem_map.mpr ⟨e, he, hid⟩)
  have hle := (Finset.card_le_card hsub).trans (List.toFinset_card_le _)
  have hinj : Function.Injective (BitVec.ofFin : Fin (2 ^ 128) → EventId) :=
    fun _ _ heq => congrArg BitVec.toFin heq
  rw [Finset.card_image_of_injective _ hinj, Finset.card_univ, Fintype.card_fin,
    List.length_map] at hle
  omega

variable {events : List ε} {base : ℕ} {l r : List (Call ε)}

/-- A call that has its block of sequences can insert its events. -/
theorem exists_inserted {pending : List ℕ} (hn : pending.Nodup)
    (h : ReflTransGen System.Step .new ⟨s, l ++ ⟨events, base, .inserting pending⟩ :: r⟩)
    (hroom : s.published.length + pending.length ≤ 2 ^ 128) :
    ∃ s', ReflTransGen System.Step ⟨s, l ++ ⟨events, base, .inserting pending⟩ :: r⟩
        ⟨s', l ++ ⟨events, base, .inserting []⟩ :: r⟩ ∧
      s'.published.length = s.published.length + pending.length ∧
      s'.eventLog.size = s.eventLog.size + pending.length := by
  induction pending generalizing s with
  | nil => exact ⟨s, .refl, rfl, rfl⟩
  | cons position pending ih =>
    obtain ⟨hposition, hn⟩ := List.nodup_cons.mp hn
    rw [List.length_cons] at hroom
    have hsound := System.sound h
    obtain ⟨hlt, -⟩ := (hsound.calls _ (List.mem_append_right l List.mem_cons_self)).waiting _ rfl
      position List.mem_cons_self
    obtain ⟨id, hid⟩ := @exists_fresh _ s (by omega)
    set stored : StoredEvent ε := ⟨id, events[position], base + position⟩
    have hrest : (position :: pending).filter (· ≠ position) = pending := by
      rw [List.filter_cons_of_neg (by simp)]
      exact List.filter_eq_self.mpr fun p hp => decide_eq_true fun heq => hposition (heq ▸ hp)
    have hstep : System.Step ⟨s, l ++ ⟨events, base, .inserting (position :: pending)⟩ :: r⟩
        ⟨s.store stored, l ++ ⟨events, base, .inserting pending⟩ :: r⟩ := by
      have hinsert : Call.Step s ⟨events, base, .inserting (position :: pending)⟩ (s.store stored)
          ⟨events, base, .inserting ((position :: pending).filter (· ≠ position))⟩ :=
        .insert List.mem_cons_self (List.getElem?_eq_getElem hlt) hid
      rw [hrest] at hinsert
      exact .step hinsert
    have hnone : s.eventLog.get? id = none := by
      refine Option.eq_none_iff_forall_ne_some.mpr fun e he => ?_
      obtain ⟨hkey, hmem⟩ := hsound.shared.logged _ _ he
      exact hid e hmem hkey
    have hsize : (s.store stored).eventLog.size = s.eventLog.size + 1 := by
      have hvalues := AssocMap.values_insert_of_none hnone stored
      have hlength := congrArg List.length hvalues
      rwa [AssocMap.length_values, List.length_append, AssocMap.length_values] at hlength
    have hpublished : (s.store stored).published.length = s.published.length + 1 :=
      List.length_append
    obtain ⟨s', hrun, hlen, hsize'⟩ := ih hn (h.tail hstep) (by omega)
    refine ⟨s', (ReflTransGen.single hstep).trans hrun, ?_, ?_⟩
    · rw [hlen, hpublished, List.length_cons]
      omega
    · rw [hsize', hsize, List.length_cons]
      omega

/-- An iteration can visit what it has not visited, and come to an end. -/
theorem exists_collected {start : List EventId} {bySequence : List (EventId × ℕ)}
    (unvisited : List EventId)
    (h : ∀ id ∈ s.eventLog.keys, id ∈ bySequence.map Prod.fst ∨ id ∈ unvisited) :
    ∃ keys, ReflTransGen System.Step ⟨s, l ++ ⟨events, base, .collecting start bySequence⟩ :: r⟩
      ⟨s, l ++ ⟨events, base, .removing keys⟩ :: r⟩ := by
  induction unvisited generalizing bySequence with
  | nil =>
    refine ⟨_, .single (.step (.sort fun id _ hid => ?_))⟩
    exact (h id hid).resolve_right List.not_mem_nil
  | cons id unvisited ih =>
    by_cases hvisit : id ∈ s.eventLog.keys ∧ id ∉ bySequence.map Prod.fst
    · obtain ⟨stored, hstored⟩ := Assoc.exists_lookup hvisit.1
      have hcovered : ∀ j ∈ s.eventLog.keys,
          j ∈ (bySequence ++ [(id, stored.sequence)]).map Prod.fst ∨ j ∈ unvisited := by
        intro j hj
        rw [List.map_append, List.mem_append]
        rcases h j hj with hj | hj
        · exact Or.inl (Or.inl hj)
        · rcases List.mem_cons.mp hj with rfl | hj
          · exact Or.inl (Or.inr (List.mem_singleton_self _))
          · exact Or.inr hj
      obtain ⟨keys, hrun⟩ := ih hcovered
      exact ⟨keys, .head (.step (.visit hstored hvisit.2)) hrun⟩
    · refine ih fun j hj => (h j hj).elim Or.inl fun hmem => ?_
      rcases List.mem_cons.mp hmem with rfl | hmem
      · exact Or.inl (not_not.mp (not_and.mp hvisit hj))
      · exact Or.inr hmem

theorem exists_removed (keys : List EventId) :
    ∃ s', ReflTransGen System.Step ⟨s, l ++ ⟨events, base, .removing keys⟩ :: r⟩
      ⟨s', l ++ ⟨events, base, .removing []⟩ :: r⟩ ∧ s'.published = s.published := by
  induction keys generalizing s with
  | nil => exact ⟨s, .refl, rfl⟩
  | cons id keys ih =>
    obtain ⟨s', hrun, hpublished⟩ := @ih { s with eventLog := s.eventLog.erase id }
    exact ⟨s', .head (.step .remove) hrun, hpublished⟩

end Progress

section Retention

theorem Call.Step.mem_published (h : Call.Step s c s' c') {e : StoredEvent ε}
    (he : e ∈ s.published) : e ∈ s'.published := by
  cases h with
  | insert => exact List.mem_append_left _ he
  | reserve | underCapacity | overCapacity | visit | sort | remove => exact he

theorem System.mem_published {p q : System ε} (h : ReflTransGen System.Step p q)
    {e : StoredEvent ε} (he : e ∈ p.shared.published) : e ∈ q.shared.published := by
  induction h with
  | refl => exact he
  | tail _ hstep ih =>
    cases hstep with
    | start => exact ih
    | step hstep => exact hstep.mem_published ih

theorem History.Sound.nodup_values (h : s.Sound) :
    s.eventLog.values.Nodup ∧ (s.eventLog.values.map (·.sequence)).Nodup := by
  have hkeys : s.eventLog.values.map (·.id) = s.eventLog.keys := by
    rw [AssocMap.values, AssocMap.keys, List.map_map]
    refine List.map_congr_left fun v hv => ?_
    exact (h.logged v.1 v.2 (Assoc.lookup_of_mem s.eventLog.nodup hv)).1
  have hvalues : s.eventLog.values.Nodup := by
    refine List.Nodup.of_map (·.id) ?_
    rw [hkeys]
    exact s.eventLog.nodup
  refine ⟨hvalues, hvalues.map_on fun e he f hf hq => ?_⟩
  exact h.eq_of_sequence (h.mem_published he) (h.mem_published hf) hq

theorem History.Sound.card_sequences (h : s.Sound) :
    (sequences s.eventLog.values).card = s.eventLog.size := by
  rw [sequences, List.toFinset_card_of_nodup h.nodup_values.2, List.length_map,
    AssocMap.length_values]

theorem card_above_sequences {l : List (StoredEvent ε)} (hn : (l.map (·.sequence)).Nodup) (q : ℕ) :
    (above (sequences l) q).card = (l.filter (q < ·.sequence)).length := by
  have hfilter : above (sequences l) q = sequences (l.filter (q < ·.sequence)) := by
    ext r
    rw [mem_above, mem_sequences, mem_sequences]
    constructor
    · rintro ⟨⟨e, he, rfl⟩, hlt⟩
      exact ⟨e, List.mem_filter.mpr ⟨he, decide_eq_true hlt⟩, rfl⟩
    · rintro ⟨e, he, rfl⟩
      obtain ⟨he, hlt⟩ := List.mem_filter.mp he
      exact ⟨⟨e, he, rfl⟩, of_decide_eq_true hlt⟩
  rw [hfilter, sequences, List.toFinset_card_of_nodup, List.length_map]
  exact hn.sublist (List.filter_sublist.map _)

/-- While the log is trimmed, no event leaves it without `eventLogEvictTarget` later ones staying;
when all calls have ended, it is within its capacity and holds the newest events. -/
theorem event_log_keeps_newest {p : System ε} (h : ReflTransGen System.Step .new p) :
    (p.shared.published.map (·.sequence)).Nodup ∧
      (∀ c ∈ p.calls, c.Done → ∀ position event, c.events[position]? = some event →
        ∃ e ∈ p.shared.published, e.event = event ∧ e.sequence = c.baseSequence + position) ∧
      (∀ q, System.Step p q → ∀ e ∈ p.shared.eventLog.values, e ∉ q.shared.eventLog.values →
        eventLogEvictTarget ≤
          (q.shared.eventLog.values.filter (e.sequence < ·.sequence)).length) ∧
      (∀ q, ReflTransGen System.Step p q → eventLogEvictTarget ≤ p.shared.eventLog.size →
        eventLogEvictTarget ≤ q.shared.eventLog.size) ∧
      (p.Idle → p.shared.eventLog.size ≤ eventLogCapacity ∧ ∀ k ≤ eventLogEvictTarget,
        p.shared.recentEvents k = (Lists.sortDesc (·.sequence) p.shared.published).take k) := by
  classical
  have hp := System.sound h
  refine ⟨hp.shared.distinct, fun c hc hdone position event he => ?_, fun q hstep e he hgone => ?_,
    fun q hrun hsize => ?_, fun hidle => ⟨System.size_le h hidle, fun k hk => ?_⟩⟩
  · refine ((hp.calls c hc).stored (by rw [hdone]; simp) position event he).resolve_left ?_
    rintro ⟨pending, hphase, -⟩
    rw [hdone] at hphase
    cases hphase
  · have hq := System.sound (h.tail hstep)
    rw [← card_above_sequences hq.shared.nodup_values.2]
    cases hstep with
    | start => exact absurd he hgone
    | step hstep => exact hstep.later hp.shared (hp.calls _ (by simp)) he hgone
  · have hq := System.sound (h.trans hrun)
    rw [← hp.shared.card_sequences] at hsize
    rw [← hq.shared.card_sequences]
    have hsub : sequences p.shared.eventLog.values ⊆ sequences q.shared.published :=
      hp.shared.keeps.subset.trans (sequences_mono fun e => System.mem_published hrun)
    exact hq.shared.keeps.le_card (hsize.trans (Finset.card_le_card hsub))
  · exact take_sortDesc_eq hp.shared.distinct hp.shared.nodup_values.1
      (fun e => hp.shared.mem_published) hp.shared.keeps hk

/-- A batch of 10000 events and one of two are stored, and both calls trim the log at once. -/
theorem event_log_keeps_newest_overlapping :
    ∃ p q : System String, ReflTransGen System.Step .new p ∧ ReflTransGen System.Step p q ∧
      p.calls.map (·.events.length) = [10000, 2] ∧
      (∀ c ∈ p.calls, c.phase = .collecting p.shared.eventLog.keys []) ∧
      p.shared.eventLog.size = 10002 ∧ q.Idle ∧ q.shared.published = p.shared.published ∧
      (q.shared.published.map (·.sequence)).Nodup ∧
      (∃ e ∈ q.shared.published, e.event = "SessionClosed" ∧ e.sequence = 10001) ∧
      eventLogEvictTarget ≤ q.shared.eventLog.size ∧ q.shared.eventLog.size ≤ eventLogCapacity ∧
      q.shared.recentEvents 9000 =
        (Lists.sortDesc (·.sequence) q.shared.published).take 9000 := by
  obtain ⟨frames, hframes⟩ : ∃ frames : List String, frames.length = 10000 :=
    ⟨List.replicate 10000 "FramesBatchGenerated", List.length_replicate⟩
  set closing : List String := ["StreamCompleted", "SessionClosed"]
  -- both calls take their sequences
  have h₁ : System.Step .new ⟨⟨.new, []⟩, [.publishBatch frames]⟩ := .start ⟨_, rfl⟩
  have h₂ : System.Step ⟨⟨.new, []⟩, [.publishBatch frames]⟩
      ⟨⟨.new, []⟩, [.publishBatch frames, .publishBatch closing]⟩ := .start ⟨_, rfl⟩
  have h₃ : System.Step ⟨⟨.new, []⟩, [.publishBatch frames, .publishBatch closing]⟩
      ⟨⟨⟨.empty, 0 + frames.length⟩, []⟩,
        [⟨frames, 0, .inserting (List.range frames.length)⟩, .publishBatch closing]⟩ :=
    .step (l := []) .reserve
  have h₄ : System.Step ⟨⟨⟨.empty, 0 + frames.length⟩, []⟩,
        [⟨frames, 0, .inserting (List.range frames.length)⟩, .publishBatch closing]⟩
      ⟨⟨⟨.empty, 0 + frames.length + 2⟩, []⟩,
        [⟨frames, 0, .inserting (List.range frames.length)⟩,
          ⟨closing, 0 + frames.length, .inserting (List.range 2)⟩]⟩ :=
    .step (l := [_]) .reserve
  have hreserved := (((ReflTransGen.single h₁).tail h₂).tail h₃).tail h₄
  -- and insert their events
  obtain ⟨s₁, hrun₁, hlen₁, hsize₁⟩ := exists_inserted (l := []) List.nodup_range hreserved
    (by rw [List.length_range, hframes]; decide)
  obtain ⟨s₂, hrun₂, hlen₂, hsize₂⟩ := exists_inserted (l := [_]) List.nodup_range
    (hreserved.trans hrun₁) (by rw [hlen₁, List.length_range, List.length_range, hframes]; decide)
  rw [hlen₁, List.length_range, List.length_range, hframes] at hlen₂
  rw [hsize₁, List.length_range, List.length_range, hframes] at hsize₂
  have hover : eventLogCapacity < s₂.eventLog.size := by
    rw [hsize₂]
    decide
  have hrun : ReflTransGen System.Step .new ⟨s₂, [⟨frames, 0, .collecting s₂.eventLog.keys []⟩,
      ⟨closing, 0 + frames.length, .collecting s₂.eventLog.keys []⟩]⟩ :=
    (((hreserved.trans hrun₁).trans hrun₂).tail (.step (l := []) (.overCapacity hover))).tail
      (.step (l := [_]) (.overCapacity hover))
  -- both see the whole log, and remove what is too much
  obtain ⟨keys, hcollect⟩ := @exists_collected _ s₂ frames 0 []
    [⟨closing, 0 + frames.length, .collecting s₂.eventLog.keys []⟩] s₂.eventLog.keys []
    s₂.eventLog.keys fun _ => Or.inr
  obtain ⟨keys', hcollect'⟩ := @exists_collected _ s₂ closing (0 + frames.length)
    [⟨frames, 0, .removing keys⟩] [] s₂.eventLog.keys [] s₂.eventLog.keys fun _ => Or.inr
  obtain ⟨s₃, hremove, hpublished⟩ := @exists_removed _ s₂ frames 0 []
    [⟨closing, 0 + frames.length, .removing keys'⟩] keys
  obtain ⟨s₄, hremove', hpublished'⟩ := @exists_removed _ s₃ closing (0 + frames.length)
    [⟨frames, 0, .removing []⟩] [] keys'
  have hend := ((hcollect.trans hcollect').trans hremove).trans hremove'
  obtain ⟨-, -, -, hstays, -⟩ := event_log_keeps_newest hrun
  obtain ⟨hdistinct, hstored, -, -, hidle⟩ := event_log_keeps_newest (hrun.trans hend)
  obtain ⟨hsize, hrecent⟩ := hidle (by simp [System.Idle, Call.Done])
  obtain ⟨e, he, hevent, hsequence⟩ := hstored ⟨closing, 0 + frames.length, .removing []⟩ (by simp)
    rfl 1 "SessionClosed" rfl
  refine ⟨_, _, hrun, hend, by simp [hframes, closing], by simp, hsize₂,
    by simp [System.Idle, Call.Done], hpublished'.trans hpublished, hdistinct,
    ⟨e, he, hevent, ?_⟩, hstays _ hend ?_, hsize, hrecent 9000 le_rfl⟩
  · rw [hsequence, hframes]
  · rw [hsize₂]
    decide

end Retention

end PJS.InMemoryEventPublisher
