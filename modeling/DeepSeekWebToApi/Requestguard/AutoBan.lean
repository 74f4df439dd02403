import DeepSeekWebToApi.Lib.Runs
import DeepSeekWebToApi.Requestguard.Guard

/- The auto-ban as a sliding window. A run is a sequence of `note` calls at times that do
   not go back, for addresses that are not allowlisted, with a database whose writes
   succeed. `Watched` keeps the calls beside the guard's state. The tracker holds one
   count per address from the first violation of its record on, and a record that has
   aged out is started again with the call that finds it, so violations on both sides of
   such a restart are never counted together. `banned_in_window_iff` says exactly which
   calls a run may contain. -/
namespace DeepSeekWebToApi.Requestguard
open GoStrings Config

/-- The guard with the calls so far: trimmed address and time. -/
structure Watched where
  guard : State
  log : List (Bytes × Int) := []

/-- The times of an address's violations. -/
def timesOf (log : List (Bytes × Int)) (ip : Bytes) : List Int :=
  (log.filter (fun entry => entry.1 == ip)).map Prod.snd

section
variable (db : Db) (cfg : SafetyAutoBanConfig)

/-- The latest violations, as many as the threshold asks for, lie within the window of each
    other. -/
def WithinWindow (times : List Int) : Prop :=
  threshold cfg ≤ times.length ∧
    ∀ t ∈ times.rtake (threshold cfg), ∀ u ∈ times.rtake (threshold cfg), t - u ≤ window cfg

instance (times : List Int) : Decidable (WithinWindow cfg times) := inferInstanceAs (Decidable (_ ∧ _))

def State.isBanned (s : State) (ip : Bytes) : Bool :=
  s.safetyIPs.any (fun t => (t.blockedIPs.get ip).isSome)

/-- One call of `note`, if its time does not go back and the address is not allowlisted. -/
def Watched.step (w : Watched) (call : Bytes × Int) : Option Watched :=
  if (∀ entry ∈ w.log, entry.2 ≤ call.2) ∧ isAllowlisted db w.guard (trimSpace call.1) = false then
    some ⟨(note db cfg w.guard call.1 call.2).1, w.log ++ [(trimSpace call.1, call.2)]⟩
  else none

/-- Whoever has violated often enough within the window is banned. -/
def Watched.Enforced (w : Watched) : Prop :=
  ∀ ip, WithinWindow cfg (timesOf w.log ip) → w.guard.isBanned ip = true

/-- The record the call is counted in has not aged out and reaches the threshold with it. -/
def Counted (s : State) (ip : Bytes) (now : Int) : Prop :=
  ip ≠ [] ∧ ∃ rec, s.offenders.get ip = some rec ∧ now - rec.firstSeen ≤ window cfg ∧
    threshold cfg ≤ rec.count + 1

/-- A call that completes a window is counted in one record with the violations before it, unless
    the address is banned already. -/
def Completed (w : Watched) (call : Bytes × Int) : Prop :=
  WithinWindow cfg (timesOf w.log (trimSpace call.1) ++ [call.2]) →
    w.guard.isBanned (trimSpace call.1) = true ∨ Counted cfg w.guard (trimSpace call.1) call.2

instance (s : State) (ip : Bytes) (now : Int) : Decidable (Counted cfg s ip now) :=
  decidable_of_iff (ip ≠ [] ∧ (s.offenders.get ip).any (fun rec =>
      decide (now - rec.firstSeen ≤ window cfg) && decide (threshold cfg ≤ rec.count + 1)) = true) (by
    simp [Counted, Option.any_eq_true])

instance (w : Watched) (call : Bytes × Int) : Decidable (Completed cfg w call) :=
  inferInstanceAs (Decidable (_ → _))

/-- A banned record stands for a row of the table. -/
structure State.Inv (s : State) : Prop where
  wired : s.safetyIPs.isSome = true
  sorted : s.offenders.Sorted
  rows : ∀ ip rec, s.offenders.get ip = some rec → rec.banned = true → s.isBanned ip = true

variable {db cfg}

/-! What one call does. -/

variable {s : State} {ip : Bytes}

theorem State.Inv.set_offenders (h : s.Inv) {rec : OffenderRecord}
    (hrec : rec.banned = true → s.isBanned ip = true) :
    ({ s with offenders := s.offenders.insert ip rec } : State).Inv where
  wired := h.wired
  sorted := h.sorted.insert
  rows := by
    intro ip' rec' hget hban
    rw [KeyMap.get_insert] at hget
    split_ifs at hget with heq
    · obtain rfl := Option.some.inj hget
      exact heq ▸ hrec hban
    · exact h.rows ip' rec' hget hban

theorem get_swept (h : s.Inv) (W now : Int) (ip : Bytes) :
    (s.swept W now).offenders.get ip = s.offenders.get ip ∨
      (s.swept W now).offenders.get ip = none ∧
        ∃ rec, s.offenders.get ip = some rec ∧ W < now - rec.firstSeen := by
  rw [State.swept]
  split_ifs
  · show KeyMap.get (sweepLocked W now s.offenders) ip = _ ∨
      KeyMap.get (sweepLocked W now s.offenders) ip = none ∧ _
    rw [sweepLocked, KeyMap.get_filter h.sorted]
    cases hget : s.offenders.get ip with
    | none => exact Or.inl rfl
    | some rec =>
      rw [Option.filter_some]
      split_ifs with hkeep
      · exact Or.inl rfl
      · refine Or.inr ⟨rfl, rec, rfl, ?_⟩
        simp only [Bool.or_eq_true, Bool.not_eq_true', decide_eq_false_iff_not, not_or,
          not_not] at hkeep
        exact hkeep.2
  · exact Or.inl rfl

theorem swept_safetyIPs (s : State) (W now : Int) : (s.swept W now).safetyIPs = s.safetyIPs := by
  rw [State.swept]
  split_ifs <;> rfl

theorem isBanned_congr {s t : State} (h : t.safetyIPs = s.safetyIPs) (ip : Bytes) :
    t.isBanned ip = s.isBanned ip := by rw [State.isBanned, State.isBanned, h]

theorem State.Inv.swept (h : s.Inv) (W now : Int) : (s.swept W now).Inv where
  wired := by rw [swept_safetyIPs]; exact h.wired
  sorted := by
    rw [State.swept]
    split_ifs
    · exact List.Pairwise.filter _ h.sorted
    · exact h.sorted
  rows := by
    intro ip rec hget hban
    rw [isBanned_congr (swept_safetyIPs s W now)]
    rcases get_swept h W now ip with hsame | ⟨hnone, _⟩
    · exact h.rows ip rec (hsame.symm.trans hget) hban
    · rw [hnone] at hget
      cases hget

/-- A record that still counts survives the sweep. -/
theorem get_swept_of_counted (h : s.Inv) {now : Int} (hc : Counted cfg s ip now) :
    ∃ rec, (s.swept (window cfg) now).offenders.get ip = some rec ∧
      now - rec.firstSeen ≤ window cfg ∧ threshold cfg ≤ rec.count + 1 := by
  obtain ⟨_, rec, hget, hfresh, hcount⟩ := hc
  rcases get_swept h (window cfg) now ip with hsame | ⟨_, rec', hget', hold⟩
  · exact ⟨rec, hsame.trans hget, hfresh, hcount⟩
  · obtain rfl := Option.some.inj (hget.symm.trans hget')
    omega

theorem State.Inv.ban {rec : OffenderRecord} (h : s.Inv) (hdb : db.writes = true) (htrim : trimSpace ip = ip)
    (hne : ip ≠ []) : (s.ban db ip rec).1.Inv ∧
      ∀ ip', (s.ban db ip rec).1.isBanned ip' = true ↔ s.isBanned ip' = true ∨ ip' = ip := by
  obtain ⟨t, ht⟩ := Option.isSome_iff_exists.mp h.wired
  have hadd : t.addBlockedIP db ip = some { t with blockedIPs := t.blockedIPs.insert ip () } := by
    rw [IPTables.addBlockedIP, htrim, if_neg hne, if_pos hdb]
  have hban : (s.ban db ip rec).1 =
      { s with offenders := s.offenders.insert ip { rec with banned := true }, signature := [],
               safetyIPs := some { t with blockedIPs := t.blockedIPs.insert ip () } } := by
    simp only [State.ban, ht, hadd]
  have hbanned : ∀ ip', (s.ban db ip rec).1.isBanned ip' = true ↔
      s.isBanned ip' = true ∨ ip' = ip := by
    intro ip'
    rw [hban]
    simp only [State.isBanned, ht, Option.any_some, KeyMap.get_insert]
    split_ifs with heq
    · exact iff_of_true rfl (Or.inr heq.symm)
    · exact ⟨Or.inl, fun hor => hor.resolve_right (Ne.symm heq)⟩
  refine ⟨⟨by rw [hban]; rfl, by rw [hban]; exact h.sorted.insert, ?_⟩, hbanned⟩
  intro ip' rec' hget hb
  rw [hbanned]
  rw [hban, KeyMap.get_insert] at hget
  split_ifs at hget with heq
  · exact Or.inr heq.symm
  · exact Or.inl (h.rows ip' rec' hget hb)

/-- A violation of an address with a record bans it exactly if it is counted up to the
    threshold. -/
theorem State.Inv.tally {now : Int} {rec : OffenderRecord} (h : s.Inv) (hdb : db.writes = true)
    (hallow : isAllowlisted db s ip = false) (htrim : trimSpace ip = ip) (hne : ip ≠ [])
    (hget : s.offenders.get ip = some rec) :
    (s.tally db cfg ip now rec).1.Inv ∧ ∀ ip', (s.tally db cfg ip now rec).1.isBanned ip' = true ↔
      s.isBanned ip' = true ∨ ip' = ip ∧ now - rec.firstSeen ≤ window cfg ∧
        threshold cfg ≤ rec.count + 1 := by
  rw [State.tally]
  by_cases hold : window cfg < now - rec.firstSeen
  · rw [if_pos hold]
    refine ⟨h.set_offenders (fun hb => by cases hb), fun ip' => ⟨Or.inl, ?_⟩⟩
    exact fun hor => hor.resolve_right fun hc => absurd hc.2.1 (not_le.mpr hold)
  rw [if_neg hold]
  by_cases hb : rec.banned = true
  · rw [if_pos hb]
    refine ⟨h, fun ip' => ⟨Or.inl, fun hor => hor.elim id fun hc => ?_⟩⟩
    exact hc.1 ▸ h.rows ip rec hget hb
  rw [if_neg hb]
  have hins : ({ s with offenders := s.offenders.insert ip { rec with count := rec.count + 1 } } :
      State).Inv := h.set_offenders (fun hb' => absurd hb' hb)
  dsimp only
  by_cases hless : rec.count + 1 < threshold cfg
  · rw [if_pos hless]
    refine ⟨hins, fun ip' => ⟨Or.inl, ?_⟩⟩
    exact fun hor => hor.resolve_right fun hc => absurd hc.2.2 (not_le.mpr hless)
  rw [if_neg hless]
  split_ifs with hal
  · -- the allowlist is read from the tables, which counting leaves alone
    exact absurd (hallow.symm.trans hal) Bool.false_ne_true
  · obtain ⟨hinv, hban⟩ := hins.ban hdb htrim hne
    refine ⟨hinv, fun ip' => (hban ip').trans (or_congr_right ⟨fun heq => ?_, And.left⟩)⟩
    exact ⟨heq, not_lt.mp hold, not_lt.mp hless⟩

/-- After a call an address is banned exactly if it was, or if it is the one of the call and the
    call was counted up to the threshold. -/
theorem note_spec {now : Int} (h : s.Inv) (hen : cfg.enabled ≠ some false) (hdb : db.writes = true)
    (hallow : isAllowlisted db s (trimSpace ip) = false) :
    (note db cfg s ip now).1.Inv ∧ ∀ ip', (note db cfg s ip now).1.isBanned ip' = true ↔
      s.isBanned ip' = true ∨ ip' = trimSpace ip ∧ Counted cfg s (trimSpace ip) now := by
  have hs := h.swept (window cfg) now
  have hsame := isBanned_congr (swept_safetyIPs s (window cfg) now)
  rw [note, if_neg hen]
  by_cases hne : trimSpace ip = []
  · rw [if_pos hne]
    exact ⟨h, fun ip' => ⟨Or.inl, fun hor => hor.resolve_right fun hc => hc.2.1 hne⟩⟩
  rw [if_neg hne]
  cases hget : (s.swept (window cfg) now).offenders.get (trimSpace ip) with
  | none =>
    simp only [hget]
    refine ⟨hs.set_offenders (fun hb => by cases hb), fun ip' => ?_⟩
    rw [← hsame]
    refine ⟨Or.inl, fun hor => hor.resolve_right fun hc => ?_⟩
    obtain ⟨rec, hrec, _⟩ := get_swept_of_counted h hc.2
    cases hget.symm.trans hrec
  | some rec =>
    simp only [hget]
    have hallow' : isAllowlisted db (s.swept (window cfg) now) (trimSpace ip) = false := by
      rw [isAllowlisted, swept_safetyIPs]
      exact hallow
    obtain ⟨hinv, hban⟩ := @State.Inv.tally db cfg _ _ now _ hs hdb hallow' (trimSpace_idem ip) hne hget
    refine ⟨hinv, fun ip' => ?_⟩
    rw [hban, hsame]
    refine or_congr_right (and_congr_right fun _ => ⟨fun hc => ?_, fun hc => ?_⟩)
    · rcases get_swept h (window cfg) now (trimSpace ip) with heq | ⟨hnone, _⟩
      · exact ⟨hne, rec, heq.symm.trans hget, hc⟩
      · cases hget.symm.trans hnone
    · obtain ⟨rec', hrec', hboth⟩ := get_swept_of_counted h hc
      exact Option.some.inj (hget.symm.trans hrec') ▸ hboth

/-! Whole runs. -/

theorem timesOf_snoc (log : List (Bytes × Int)) (name ip : Bytes) (now : Int) :
    timesOf (log ++ [(name, now)]) ip =
      if name = ip then timesOf log ip ++ [now] else timesOf log ip := by
  rw [timesOf, List.filter_append, List.map_append]
  by_cases h : name = ip <;> simp [timesOf, h]

theorem threshold_pos (cfg : SafetyAutoBanConfig) : 0 < threshold cfg := by
  rw [threshold]
  split_ifs with h
  · decide
  · have hpos : 0 < cfg.threshold.toInt := Int64.lt_iff_toInt_lt.mp (Int64.not_le.mp h)
    omega

theorem Watched.step_eq {w v : Watched} {call : Bytes × Int} (h : w.step db cfg call = some v) :
    isAllowlisted db w.guard (trimSpace call.1) = false ∧
      v = ⟨(note db cfg w.guard call.1 call.2).1, w.log ++ [(trimSpace call.1, call.2)]⟩ := by
  rw [Watched.step] at h
  split_ifs at h with hallowed
  exact ⟨hallowed.2, (Option.some.inj h).symm⟩

/-- One call keeps the window enforced exactly if the window it completes was counted. -/
theorem Watched.enforced_step {w v : Watched} {call : Bytes × Int} (hen : cfg.enabled ≠ some false)
    (hdb : db.writes = true) (hinv : w.guard.Inv) (h : w.Enforced cfg)
    (hstep : w.step db cfg call = some v) : v.Enforced cfg ↔ Completed cfg w call := by
  obtain ⟨hallow, rfl⟩ := Watched.step_eq hstep
  have hban := (@note_spec db cfg _ _ call.2 hinv hen hdb hallow).2
  constructor
  · intro hv hwin
    have hname := (hban _).mp (hv (trimSpace call.1) (by rwa [timesOf_snoc, if_pos rfl]))
    exact hname.imp id And.right
  · intro hc ip hwin
    rw [timesOf_snoc] at hwin
    split_ifs at hwin with heq
    · subst heq
      exact (hban _).mpr ((hc hwin).imp id (fun hcounted => ⟨rfl, hcounted⟩))
    · exact (hban ip).mpr (Or.inl (h ip hwin))

/-- From a new tracker on, the sliding window is enforced throughout a run exactly if every call
    that completes a window is counted in one record with the violations before it. -/
theorem banned_in_window_iff (hen : cfg.enabled ≠ some false) (hdb : db.writes = true)
    {tables : IPTables} (calls : List (Bytes × Int)) :
    Runs.Always (Watched.step db cfg) (Watched.Enforced cfg) ⟨⟨[], some tables, [], {}⟩, []⟩ calls ↔
      Runs.Meets (Watched.step db cfg) (Completed cfg) ⟨⟨[], some tables, [], {}⟩, []⟩ calls := by
  have hinv : (⟨[], some tables, [], {}⟩ : State).Inv :=
    ⟨rfl, List.Pairwise.nil, fun _ _ hget => by cases hget⟩
  have hstart : Watched.Enforced cfg ⟨⟨[], some tables, [], {}⟩, []⟩ := fun ip hwin =>
    absurd hwin.1 (not_le.mpr (threshold_pos cfg))
  have hkeep : ∀ w call v, w.guard.Inv → Watched.step db cfg w call = some v → v.guard.Inv := by
    intro w call v hw hv
    obtain ⟨hallow, rfl⟩ := Watched.step_eq hv
    exact (note_spec hw hen hdb hallow).1
  rw [← Runs.always_iff_meets (P := fun w => w.Enforced cfg ∧ w.guard.Inv) ?_ calls _ ⟨hstart, hinv⟩]
  · exact ⟨fun h => h.with_inv (fun w call v _ hw hv _ => hkeep w call v hw hv) hinv, fun h => h.mono fun _ => And.left⟩
  · intro w call v hw hv
    rw [← Watched.enforced_step hen hdb hw.2 hw.1 hv]
    exact and_iff_left (hkeep w call v hw.2 hv)

end

/-- A new guard whose database is empty, and an address with violations at the given seconds. -/
def newlyWatched : Watched := ⟨⟨[], some {}, [], {}⟩, []⟩

def violationsAt (seconds : List Int) : List (Bytes × Int) :=
  seconds.map (fun t => (lit "198.51.100.7", t * 1000000000))

theorem banned_third_in_window :
    Runs.Always (Watched.step ⟨true, true⟩ {}) (Watched.Enforced {}) newlyWatched
      (violationsAt [0, 500, 600, 610]) :=
  (banned_in_window_iff (by decide) rfl _).mpr (by decide +kernel)

/-- With the default threshold of three in ten minutes, the violations at 500, 700 and 800 seconds
    straddle the restart at 700; with a threshold of one the first violation is never counted. -/
theorem window_restart_forgets :
    (∃ w, Runs.run (Watched.step ⟨true, true⟩ {}) newlyWatched (violationsAt [0, 500, 700, 800]) =
        some w ∧ ¬ w.Enforced {}) ∧
      ∃ w, Runs.run (Watched.step ⟨true, true⟩ { threshold := 1 }) newlyWatched (violationsAt [0]) =
        some w ∧ ¬ w.Enforced { threshold := 1 } := by
  have hlost : ∀ (cfg : SafetyAutoBanConfig) (seconds : List Int),
      (Runs.run (Watched.step ⟨true, true⟩ cfg) newlyWatched (violationsAt seconds)).any (fun w =>
        decide (WithinWindow cfg (timesOf w.log (lit "198.51.100.7"))) &&
          !w.guard.isBanned (lit "198.51.100.7")) = true →
      ∃ w, Runs.run (Watched.step ⟨true, true⟩ cfg) newlyWatched (violationsAt seconds) = some w ∧
        ¬ w.Enforced cfg := by
    intro cfg seconds h
    obtain ⟨w, hw, hboth⟩ := (Option.any_eq_true _ _).mp h
    simp only [Bool.and_eq_true, decide_eq_true_eq, Bool.not_eq_true'] at hboth
    exact ⟨w, hw, fun henf => Bool.false_ne_true (hboth.2.symm.trans (henf _ hboth.1))⟩
  exact ⟨hlost _ _ (by decide +kernel), hlost _ _ (by decide +kernel)⟩

end DeepSeekWebToApi.Requestguard
