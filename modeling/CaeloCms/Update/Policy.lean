import CaeloCms.Lib.MinuteClock
import CaeloCms.Update.Kind

/-!
# The update policy

The Owner's policy for automatic updates, with its maintenance window and its pause, and the job's own check whether it
lets a release install (`autoInstallRefusal`).  Times are milliseconds.  What the runtime knows of dates and time zones
is a `Calendar`; a local clock does not change inside a UTC minute.
-/

namespace CaeloCms.Update

open MinuteClock (JumpsRarely firstMinute firstMinute_eq_some firstMinute_eq_none)

/-! ### Source -/

structure Calendar where
  /-- `Date.parse`; `none` stands for `NaN`. -/
  parseDate : String → Option Int
  /-- `toISOString` -/
  isoText : Int → String
  /-- The minutes since local midnight in a time zone, at a UTC minute. -/
  localMinutes : String → Int → Nat

inductive PolicyMode
  | notify
  | auto
deriving DecidableEq

inductive PolicyChannel
  | stable
  | rc
  | beta
  | alpha
deriving DecidableEq

/-- `HH:MM` -/
structure WallClock where
  hour : Fin 24
  minute : Fin 60
deriving DecidableEq

def WallClock.text (w : WallClock) : String :=
  let two (n : Nat) := if n < 10 then s!"0{n}" else s!"{n}"
  s!"{two w.hour.val}:{two w.minute.val}"

def toMinutes (w : WallClock) : Nat := w.hour.val * 60 + w.minute.val

structure StoredUpdatePolicy where
  mode : PolicyMode
  autoSecurity : Bool
  autoPatch : Bool
  autoMinor : Bool
  autoConverge : Bool
  channel : PolicyChannel
  windowStart : Option WallClock
  windowEnd : Option WallClock
  windowTimezone : String
  soakHours : Nat
  securitySoakHours : Nat
  paused : Bool
  pausedReason : Option String
  pausedUntil : Option String
  pausedByOwner : Bool
  bothEnds : windowStart.isSome = windowEnd.isSome
  autoStable : mode = .auto → channel = .stable
  soakMax : soakHours ≤ 720
  securitySoakMax : securitySoakHours ≤ soakHours

variable (cal : Calendar)

def minuteMs : Int := 60000

def inMaintenanceWindow (policy : StoredUpdatePolicy) (at_ : Int) : Bool :=
  match policy.windowStart, policy.windowEnd with
  | none, _ => true
  | some _, none => true
  | some windowStart, some windowEnd =>
    let now := cal.localMinutes policy.windowTimezone (at_ / minuteMs)
    let start := toMinutes windowStart
    let stop := toMinutes windowEnd
    if start = stop then true
    else if start < stop then start ≤ now && now < stop
    else start ≤ now || now < stop

/-- What the policy needs to know about a release. -/
structure AutoInstallCandidate where
  kind : UpdateKind
  security : Bool
  contractMigrations : Bool
  channel : String

def UpdateKind.text : UpdateKind → String
  | .major => "major"
  | .minor => "minor"
  | .patch => "patch"

/-- Why the job does not install the candidate unattended at a time; `none` where it does. -/
def autoInstallRefusal (policy : StoredUpdatePolicy) (candidate : AutoInstallCandidate) (at_ : Int) : Option String :=
  if policy.mode ≠ .auto then some "automatic installs are switched off in the update policy"
  else if policy.paused ∧ policy.pausedUntil.all (fun date => (cal.parseDate date).any fun time => at_ < time) then
    some "automatic installs are paused"
  else if candidate.channel ≠ "stable" then some "only stable releases install automatically"
  else if candidate.contractMigrations then
    some "the release carries destructive database changes; the Owner installs it by hand"
  else if candidate.kind = .major then some "major releases never install automatically"
  else
    let allowed := candidate.security && policy.autoSecurity || candidate.kind = .patch && policy.autoPatch ||
      candidate.kind = .minor && policy.autoMinor
    if !allowed then
      let fixes := if candidate.security then "security fixes or " else ""
      some s!"the policy does not install {fixes}{candidate.kind.text} releases automatically"
    else if !inMaintenanceWindow cal policy at_ then some "outside the maintenance window"
    else none

/-- The first minute from a time on inside the maintenance window. -/
def nextWindowOpening (policy : StoredUpdatePolicy) (from_ : Int) : Option Int :=
  (firstMinute (2 * 24 * 60) (fun k => inMaintenanceWindow cal policy (k * minuteMs)) (-(-from_ / minuteMs))).map
    fun k => k * minuteMs

/-! ### The window -/

variable {cal} {policy : StoredUpdatePolicy} {s t from_ : Int}

theorem inMaintenanceWindow_congr (h : s / minuteMs = t / minuteMs) :
    inMaintenanceWindow cal policy s = inMaintenanceWindow cal policy t := by
  unfold inMaintenanceWindow
  rw [h]

theorem inMaintenanceWindow_minute (t : Int) :
    inMaintenanceWindow cal policy (t / minuteMs * minuteMs) = inMaintenanceWindow cal policy t := by
  apply inMaintenanceWindow_congr
  rw [minuteMs]
  omega

theorem nextWindowOpening_eq_some (h : nextWindowOpening cal policy from_ = some t)
    (hclosed : inMaintenanceWindow cal policy from_ = false) : inMaintenanceWindow cal policy t = true ∧ from_ ≤ t ∧
      ∀ s, from_ ≤ s → s < t → inMaintenanceWindow cal policy s = false := by
  obtain ⟨k, hk, rfl⟩ := Option.map_eq_some_iff.1 h
  obtain ⟨hopen, hle, hbefore⟩ := firstMinute_eq_some hk
  have hfrom : from_ ≤ k * minuteMs := by
    rw [minuteMs] at hle ⊢
    omega
  refine ⟨hopen, hfrom, ?_⟩
  intro s hs hlt
  by_cases hminute : s / minuteMs = from_ / minuteMs
  · rw [inMaintenanceWindow_congr hminute, hclosed]
  · have hclosed' := hbefore (s / minuteMs) (by rw [minuteMs] at *; omega) (by rw [minuteMs] at *; omega)
    rw [inMaintenanceWindow_minute] at hclosed'
    exact hclosed'

theorem nextWindowOpening_eq_none (h : nextWindowOpening cal policy from_ = none)
    (hclosed : inMaintenanceWindow cal policy from_ = false) :
    ∀ s, from_ ≤ s → s ≤ from_ + 2 * 24 * 60 * minuteMs → inMaintenanceWindow cal policy s = false := by
  intro s hs hle
  by_cases hminute : s / minuteMs = from_ / minuteMs
  · rw [inMaintenanceWindow_congr hminute, hclosed]
  · have hnone := firstMinute_eq_none (Option.map_eq_none_iff.1 h) (s / minuteMs) (by rw [minuteMs] at *; omega)
      (by rw [minuteMs] at *; push_cast; omega)
    rw [inMaintenanceWindow_minute] at hnone
    exact hnone

theorem toMinutes_lt (w : WallClock) : toMinutes w < 1440 := by
  have hhour := w.hour.isLt
  have hminute := w.minute.isLt
  rw [toMinutes]
  omega

theorem inMaintenanceWindow_start {k : Int} {w : WallClock} (hstart : policy.windowStart = some w)
    (h : cal.localMinutes policy.windowTimezone k = toMinutes w) :
    inMaintenanceWindow cal policy (k * minuteMs) = true := by
  have hminute : k * minuteMs / minuteMs = k := Int.mul_ediv_cancel k (by decide)
  unfold inMaintenanceWindow
  rw [hstart, hminute]
  cases policy.windowEnd with
  | none => rfl
  | some windowEnd =>
    simp only [h]
    by_cases heq : toMinutes w = toMinutes windowEnd
    · rw [if_pos heq]
    · by_cases hlt : toMinutes w < toMinutes windowEnd
      · simp [heq, hlt]
      · simp [heq, hlt]

theorem nextWindowOpening_ne_none (h : JumpsRarely (cal.localMinutes policy.windowTimezone)) (from_ : Int) :
    nextWindowOpening cal policy from_ ≠ none := by
  intro hnone
  have hclosed := firstMinute_eq_none (Option.map_eq_none_iff.1 hnone)
  cases hstart : policy.windowStart with
  | none =>
    have hopen := hclosed (-(-from_ / minuteMs)) (le_refl _) (by omega)
    unfold inMaintenanceWindow at hopen
    rw [hstart] at hopen
    cases hopen
  | some w =>
    obtain ⟨m, hm, hshown⟩ := MinuteClock.exists_shown h (-(-from_ / minuteMs)) (toMinutes_lt w)
    have hopen := hclosed _ (Int.le_add_of_nonneg_right (Int.natCast_nonneg m)) (by omega)
    rw [inMaintenanceWindow_start hstart hshown] at hopen
    cases hopen

end CaeloCms.Update
