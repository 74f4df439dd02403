import DeepSeekWebToApi.Requestguard.AutoBan

/- No address is banned without cause. The calls of `note` are any at all, for addresses on
   the allowlist too, with a database that may be missing or fail; only the clock does not
   go back. A record covers as many of the latest violations as it counts, none before its
   first, so a ban has the threshold's number of violations in one window behind it. -/
namespace DeepSeekWebToApi.Requestguard
open GoStrings Config

variable (db : Db) (cfg : SafetyAutoBanConfig)

/-- One call of `note`, if its time does not go back. -/
def Watched.call (w : Watched) (call : Bytes × Int) : Option Watched :=
  if ∀ entry ∈ w.log, entry.2 ≤ call.2 then
    some ⟨(note db cfg w.guard call.1 call.2).1, w.log ++ [(trimSpace call.1, call.2)]⟩
  else none

/-- The violations the record counts are the latest of its address, from `firstSeen` on. -/
def Covers (log : List (Bytes × Int)) (ip : Bytes) (rec : OffenderRecord) : Prop :=
  ∃ older recent, timesOf log ip = older ++ recent ∧ rec.count ≤ recent.length ∧
    rec.firstSeen ∈ recent ∧ ∀ t ∈ recent, rec.firstSeen ≤ t

/-- Every ban was there at the start or came with a full window. -/
structure Watched.Justified (start : State) (w : Watched) : Prop where
  sorted : w.guard.offenders.Sorted
  records : ∀ ip rec, w.guard.offenders.get ip = some rec → Covers w.log ip rec
  bans : ∀ ip, w.guard.isBanned ip = true →
    start.isBanned ip = true ∨ ∃ log, log <+: w.log ∧ WithinWindow cfg (timesOf log ip)

variable {db cfg} {start s : State} {log : List (Bytes × Int)} {name : Bytes} {now : Int}
  {rec : OffenderRecord}

theorem mem_timesOf {t : Int} (h : t ∈ timesOf log name) : (name, t) ∈ log := by
  obtain ⟨⟨ip, u⟩, hmem, rfl⟩ := List.mem_map.mp h
  obtain ⟨hmem, hip⟩ := List.mem_filter.mp hmem
  rwa [← eq_of_beq hip]

/-- A violation of the address counts on in its record, or is left out of the count. -/
theorem Covers.count (h : Covers log name rec) (hnow : ∀ e ∈ log, e.2 ≤ now) :
    Covers (log ++ [(name, now)]) name { rec with count := rec.count + 1 } := by
  obtain ⟨older, recent, htimes, hcount, hfirst, hall⟩ := h
  refine ⟨older, recent ++ [now], ?_, ?_, List.mem_append_left _ hfirst, ?_⟩
  · rw [timesOf_snoc, if_pos rfl, htimes, List.append_assoc]
  · simpa using hcount
  · intro t ht
    rcases List.mem_append.mp ht with ht | ht
    · exact hall t ht
    · rw [List.mem_singleton.mp ht]
      apply hnow (name, rec.firstSeen)
      exact mem_timesOf (htimes ▸ List.mem_append_right older hfirst)

theorem Covers.later {ip : Bytes} (h : Covers log ip rec) (hnow : ∀ e ∈ log, e.2 ≤ now) (name : Bytes) :
    Covers (log ++ [(name, now)]) ip rec := by
  by_cases hip : name = ip
  · subst hip
    obtain ⟨older, recent, htimes, hcount, hrest⟩ := h.count hnow
    exact ⟨older, recent, htimes, Nat.le_of_succ_le hcount, hrest⟩
  · rw [Covers, timesOf_snoc, if_neg hip]
    exact h

theorem covers_restart : Covers (log ++ [(name, now)]) name ⟨1, now, false⟩ := by
  refine ⟨timesOf log name, [now], ?_, Nat.le_refl 1, List.mem_singleton_self now, ?_⟩
  · rw [timesOf_snoc, if_pos rfl]
  · intro t ht
    rw [List.mem_singleton.mp ht]

/-- A record that reaches the threshold within the window covers a full window. -/
theorem Covers.withinWindow (h : Covers log name rec) (hnow : ∀ e ∈ log, e.2 ≤ now)
    (hwindow : now - rec.firstSeen ≤ window cfg) (hcount : threshold cfg ≤ rec.count) :
    WithinWindow cfg (timesOf log name) := by
  obtain ⟨older, recent, htimes, hrecent, -, hall⟩ := h
  have hlast : ∀ t ∈ (timesOf log name).rtake (threshold cfg), rec.firstSeen ≤ t ∧ t ≤ now := by
    intro t ht
    rw [htimes, List.rtake, List.length_append, List.drop_append,
      List.drop_eq_nil_of_le (by omega), List.nil_append] at ht
    have hmem : t ∈ recent := List.mem_of_mem_drop ht
    exact ⟨hall t hmem, hnow (name, t) (mem_timesOf (htimes ▸ List.mem_append_right older hmem))⟩
  refine ⟨?_, fun t ht u hu => ?_⟩
  · rw [htimes, List.length_append]
    omega
  · have hupper := (hlast t ht).2
    have hlower := (hlast u hu).1
    omega

theorem get_of_get_swept {W : Int} (hs : s.offenders.Sorted)
    (h : (s.swept W now).offenders.get name = some rec) : s.offenders.get name = some rec := by
  rw [State.swept] at h
  split_ifs at h
  · rw [sweepLocked, KeyMap.get_filter hs] at h
    exact (Option.filter_eq_some_iff.mp h).1
  · exact h

namespace Watched.Justified

theorem later (h : Justified cfg start ⟨s, log⟩) (hnow : ∀ e ∈ log, e.2 ≤ now) (name : Bytes) :
    Justified cfg start ⟨s, log ++ [(name, now)]⟩ where
  sorted := h.sorted
  records := fun ip rec hget => (h.records ip rec hget).later hnow name
  bans := by
    intro ip hban
    refine (h.bans ip hban).imp id ?_
    rintro ⟨l, hl, hwindow⟩
    exact ⟨l, hl.trans (List.prefix_append log _), hwindow⟩

theorem swept (h : Justified cfg start ⟨s, log⟩) (W now : Int) :
    Justified cfg start ⟨s.swept W now, log⟩ := by
  refine ⟨?_, fun ip rec hget => h.records ip rec (get_of_get_swept h.sorted hget), ?_⟩
  · rw [State.swept]
    split_ifs
    · exact h.sorted.filter _
    · exact h.sorted
  · intro ip hban
    exact h.bans ip ((isBanned_congr (swept_safetyIPs s W now) ip).symm.trans hban)

theorem set (h : Justified cfg start ⟨s, log⟩) (hc : Covers log name rec) :
    Justified cfg start ⟨{ s with offenders := s.offenders.insert name rec }, log⟩ where
  sorted := h.sorted.insert
  records := by
    intro ip r hget
    rw [KeyMap.get_insert] at hget
    split_ifs at hget with hip
    · cases hget
      exact hip ▸ hc
    · exact h.records ip r hget
  bans := h.bans

theorem ban (h : Justified cfg start ⟨s, log⟩) (hc : Covers log name rec)
    (hwindow : WithinWindow cfg (timesOf log (trimSpace name))) :
    Justified cfg start ⟨(s.ban db name rec).1, log⟩ := by
  obtain ⟨hsorted, hrecords, hbans⟩ := h.set (show Covers log name { rec with banned := true } from hc)
  rw [State.ban]
  dsimp only
  split
  · exact ⟨hsorted, hrecords, hbans⟩
  · next t hips =>
    split
    · exact h
    · next t' hadd =>
      refine ⟨hsorted, hrecords, fun ip hban => ?_⟩
      -- a row that is new is the one of the address
      have hrow : ip = trimSpace name ∨ (t.blockedIPs.get ip).isSome = true := by
        rw [IPTables.addBlockedIP] at hadd
        split_ifs at hadd <;> cases hadd
        · exact Or.inr hban
        · simp only [State.isBanned, Option.any_some, KeyMap.get_insert] at hban
          split_ifs at hban with hip
          · exact Or.inl hip.symm
          · exact Or.inr hban
      rcases hrow with rfl | hrow
      · exact Or.inr ⟨log, List.prefix_refl log, hwindow⟩
      · refine hbans ip ?_
        rw [State.isBanned, hips]
        exact hrow

theorem call {w v : Watched} {a : Bytes × Int} (h : Justified cfg start w)
    (hstep : w.call db cfg a = some v) : Justified cfg start v := by
  rw [Watched.call] at hstep
  split_ifs at hstep with hnow
  cases hstep
  have hlater := h.later hnow (trimSpace a.1)
  have hlast : ∀ e ∈ w.log ++ [(trimSpace a.1, a.2)], e.2 ≤ a.2 := by
    intro e he
    rcases List.mem_append.mp he with he | he
    · exact hnow e he
    · rw [List.mem_singleton.mp he]
  rw [note]
  dsimp only
  split_ifs
  · exact hlater
  · exact hlater
  · have hswept := hlater.swept (window cfg) a.2
    split
    · exact hswept.set covers_restart
    · next rec hget =>
      rw [State.tally]
      dsimp only
      split_ifs with hold hbanned hless hallow
      · exact hswept.set covers_restart
      · exact hswept
      all_goals
        have hcount := (h.records _ rec (get_of_get_swept h.sorted hget)).count hnow
      · exact hswept.set hcount
      · exact hswept.set hcount
      · refine (hswept.set hcount).ban hcount ?_
        rw [trimSpace_idem]
        exact hcount.withinWindow hlast (not_lt.mp hold) (not_lt.mp hless)

end Watched.Justified

/-- In every run an address that is banned was banned at the start, or had as many violations as the
    threshold asks for within one window. -/
theorem bans_justified (tables : Option IPTables) (calls : List (Bytes × Int)) {w : Watched}
    (h : Runs.run (Watched.call db cfg) ⟨⟨[], tables, [], {}⟩, []⟩ calls = some w) {ip : Bytes}
    (hban : w.guard.isBanned ip = true) :
    (⟨[], tables, [], {}⟩ : State).isBanned ip = true ∨
      ∃ log, log <+: w.log ∧ WithinWindow cfg (timesOf log ip) := by
  have hstart : Watched.Justified cfg ⟨[], tables, [], {}⟩ ⟨⟨[], tables, [], {}⟩, []⟩ :=
    ⟨List.Pairwise.nil, fun _ _ hget => absurd hget (Option.some_ne_none _).symm, fun _ => Or.inl⟩
  exact (Runs.run_inv (fun _ _ _ hw hstep => hw.call hstep) calls hstart h).bans ip hban

/-- Three violations in ten minutes. -/
theorem bans_justified_third : ∃ w, Runs.run (Watched.call ⟨true, true⟩ {}) newlyWatched
      (violationsAt [0, 500, 600]) = some w ∧
    ∃ log, log <+: w.log ∧ WithinWindow {} (timesOf log (lit "198.51.100.7")) := by
  have hrun : (Runs.run (Watched.call ⟨true, true⟩ {}) newlyWatched (violationsAt [0, 500, 600])).any
      (fun w => w.guard.isBanned (lit "198.51.100.7")) = true := by decide +kernel
  obtain ⟨w, hw, hban⟩ := (Option.any_eq_true _ _).mp hrun
  exact ⟨w, hw, (bans_justified (some {}) _ hw hban).resolve_left (by decide)⟩

end DeepSeekWebToApi.Requestguard
