import AlephNode.FiniteMaps
import AlephNode.PanicsAndChannels

/-!
# Metrics of blocks

The metrics remember when a block first got to a checkpoint, and show for each checkpoint
how long the last block that got there took from the checkpoint before. Instants are in
nanoseconds. The registry belongs to another library: which names it accepts for a new
gauge is a parameter.
-/
namespace AlephNode

inductive PrometheusError where
  | invalidName (name : String)
  | alreadyReg (name : String)
  deriving DecidableEq, Repr

/-- What is behind the lock of `Metrics`. -/
structure Metrics (Hash : Type) where
  keys : List String
  prev : FiniteMap String String
  gauges : FiniteMap String ℕ
  starts : FiniteMap String (FiniteMap Hash ℕ)

/-- The arguments of a call of `report_block`. -/
structure Report (Hash : Type) where
  hash : Hash
  checkpoint : ℕ
  checkpointName : String

def metricKeys : List String :=
  ["importing", "imported", "get_data", "finalize", "aggregation-start"]

def metricPrev : FiniteMap String String :=
  List.toFinmap [⟨"imported", "importing"⟩, ⟨"get_data", "imported"⟩,
    ⟨"aggregation-start", "get_data"⟩, ⟨"finalize", "aggregation-start"⟩]

/-- `Instant::duration_since` panics for an instant that is later than this one. -/
def durationSince (checkpoint start : ℕ) : Result ℕ :=
  if checkpoint < start then .error (.expect "supplied instant is later than self")
  else .ok (checkpoint - start)

/-- `as_millis() as u64` -/
def asMillis (duration : ℕ) : ℕ := duration / 10 ^ 6 % 2 ^ 64

/-- `entry(hash).or_insert(checkpoint)` -/
def recordStart {Hash : Type} [DecidableEq Hash] (hash : Hash) (checkpoint : ℕ)
    (starts : FiniteMap Hash ℕ) : FiniteMap Hash ℕ :=
  match starts.lookup hash with
  | some _ => starts
  | none => starts.insert hash checkpoint

/-- The loop in `register`. What was registered before a failure stays registered. -/
def registerGauges (acceptsName : String → Bool) :
    List String → Finset String → FiniteMap String ℕ →
      Except PrometheusError (FiniteMap String ℕ) × Finset String
  | [], registry, gauges => (.ok gauges, registry)
  | key :: keys, registry, gauges =>
    let name := "aleph_" ++ key
    if acceptsName name = false then (.error (.invalidName name), registry)
    else if name ∈ registry then (.error (.alreadyReg name), registry)
    else registerGauges acceptsName keys (insert name registry) (gauges.insert key 0)

namespace Metrics
variable {Hash : Type} [DecidableEq Hash]

/-- `Metrics::register`, with the names that are in the registry afterwards. -/
def register (acceptsName : String → Bool) (registry : Finset String) :
    Except PrometheusError (Metrics Hash) × Finset String :=
  let (gauges, registry) := registerGauges acceptsName metricKeys registry ∅
  (gauges.map (fun gauges =>
    { keys := metricKeys
      prev := metricPrev
      gauges := gauges
      starts := List.toFinmap (metricKeys.map (fun key => ⟨key, ∅⟩)) }), registry)

def reportBlock (metrics : Metrics Hash) (hash : Hash) (checkpoint : ℕ)
    (checkpointName : String) : Result (Metrics Hash) :=
  let metrics := { metrics with
    starts := metrics.starts.modify checkpointName (recordStart hash checkpoint) }
  match metrics.prev.lookup checkpointName with
  | none => .ok metrics
  | some prevCheckpointName =>
    match metrics.starts.lookup prevCheckpointName with
    | none => .error (.expect "prev was stored")
    | some starts =>
      match starts.lookup hash with
      | none => .ok metrics
      | some start =>
        match metrics.gauges.lookup checkpointName with
        | none => .error (.expect "checkpoint gauge was stored")
        | some _ => do
          let duration ← durationSince checkpoint start
          .ok { metrics with
            gauges := metrics.gauges.insert checkpointName (asMillis duration) }

/-- The reports of a history, the most recent first, one after another. -/
def reportAll (metrics : Metrics Hash) : List (Report Hash) → Result (Metrics Hash)
  | [] => .ok metrics
  | report :: earlier => do
    (← reportAll metrics earlier).reportBlock report.hash report.checkpoint report.checkpointName

end Metrics

section History
variable {Hash : Type} [DecidableEq Hash]

/-- When the block got to the checkpoint for the first time, according to a history of
reports, the most recent first. -/
def firstStart (checkpointName : String) (hash : Hash) : List (Report Hash) → Option ℕ
  | [] => none
  | report :: earlier =>
    (firstStart checkpointName hash earlier).or
      (if report.checkpointName = checkpointName ∧ report.hash = hash then some report.checkpoint
      else none)

/-- When the block of a report got to the checkpoint before. -/
def prevStart (report : Report Hash) (earlier : List (Report Hash)) : Option ℕ :=
  (metricPrev.lookup report.checkpointName).bind (firstStart · report.hash earlier)

/-- What a history of reports lets the gauge of a checkpoint show: how long the last block
took whose checkpoint before is known. -/
def shown (checkpointName : String) : List (Report Hash) → ℕ
  | [] => 0
  | report :: earlier =>
    match prevStart report earlier with
    | some start =>
      if report.checkpointName = checkpointName then asMillis (report.checkpoint - start)
      else shown checkpointName earlier
    | none => shown checkpointName earlier

/-- No report is dated before its block got to the checkpoint before. -/
def Dated : List (Report Hash) → Prop
  | [] => True
  | report :: earlier =>
    (∀ start, prevStart report earlier = some start → start ≤ report.checkpoint) ∧ Dated earlier

theorem firstStart_cons {checkpointName : String} {hash : Hash} {report : Report Hash}
    {earlier : List (Report Hash)}
    (hother : ¬(report.checkpointName = checkpointName ∧ report.hash = hash)) :
    firstStart checkpointName hash (report :: earlier) = firstStart checkpointName hash earlier := by
  rw [firstStart, if_neg hother, Option.or_none]

/-- The checkpoint before another one is one of the keys, and so is the other one. -/
theorem metricPrev_keys {checkpointName prevCheckpointName : String}
    (h : metricPrev.lookup checkpointName = some prevCheckpointName) :
    checkpointName ∈ metricKeys ∧ prevCheckpointName ∈ metricKeys ∧
      prevCheckpointName ≠ checkpointName := by
  rw [metricPrev, Finmap.dlookup_list_toFinmap, ← Option.mem_def] at h
  have hmem := List.of_mem_dlookup h
  simp only [List.mem_cons, Sigma.mk.injEq, heq_eq_eq, List.not_mem_nil, or_false] at hmem
  rcases hmem with ⟨rfl, rfl⟩ | ⟨rfl, rfl⟩ | ⟨rfl, rfl⟩ | ⟨rfl, rfl⟩ <;> decide

end History

namespace Metrics
variable {Hash : Type} [DecidableEq Hash] {metrics metrics' : Metrics Hash}
  {history earlier : List (Report Hash)} {report : Report Hash}

structure Shows (metrics : Metrics Hash) (history : List (Report Hash)) : Prop where
  prev : metrics.prev = metricPrev
  gauges : ∀ key ∈ metricKeys, metrics.gauges.lookup key = some (shown key history)
  starts : ∀ key ∈ metricKeys, ∃ starts, metrics.starts.lookup key = some starts ∧
    ∀ hash, starts.lookup hash = firstStart key hash history

theorem lookup_recordStart (hash hash' : Hash) (checkpoint : ℕ) (starts : FiniteMap Hash ℕ) :
    (recordStart hash checkpoint starts).lookup hash' =
      (starts.lookup hash').or (if hash = hash' then some checkpoint else none) := by
  unfold recordStart
  by_cases hsame : hash = hash'
  · subst hsame
    cases hlookup : starts.lookup hash with
    | none => simp
    | some start => simp [hlookup]
  · cases hlookup : starts.lookup hash with
    | none => simp [hsame, Ne.symm hsame]
    | some start => simp [hsame]

/-- The first time that a block gets to a checkpoint is recorded. -/
theorem Shows.recordStart (h : Shows metrics earlier) {key : String} (hkey : key ∈ metricKeys) :
    ∃ starts, (metrics.starts.modify report.checkpointName
        (recordStart report.hash report.checkpoint)).lookup key = some starts ∧
      ∀ hash, starts.lookup hash = firstStart key hash (report :: earlier) := by
  obtain ⟨starts, hstarts, hfirst⟩ := h.starts key hkey
  rw [FiniteMap.lookup_modify, hstarts]
  by_cases hname : key = report.checkpointName
  · subst hname
    refine ⟨_, by rw [if_pos rfl, Option.map_some], ?_⟩
    intro hash
    rw [lookup_recordStart, hfirst, firstStart]
    simp
  · refine ⟨starts, by rw [if_neg hname], ?_⟩
    intro hash
    rw [hfirst, firstStart_cons]
    exact fun hsame => hname hsame.1.symm

/-- One report. It panics exactly if it is dated before its block got to the checkpoint
before; otherwise the metrics show one more report. -/
theorem Shows.reportBlock (h : Shows metrics earlier) (report : Report Hash) :
    if ∀ start, prevStart report earlier = some start → start ≤ report.checkpoint then
      ∃ metrics', metrics.reportBlock report.hash report.checkpoint report.checkpointName =
        .ok metrics' ∧ Shows metrics' (report :: earlier)
    else ¬Returns (metrics.reportBlock report.hash report.checkpoint report.checkpointName) := by
  let recorded : Metrics Hash := { metrics with
    starts := metrics.starts.modify report.checkpointName
      (AlephNode.recordStart report.hash report.checkpoint) }
  have hstarts : ∀ key ∈ metricKeys, ∃ starts, recorded.starts.lookup key = some starts ∧
      ∀ hash, starts.lookup hash = firstStart key hash (report :: earlier) :=
    fun key hkey => h.recordStart hkey
  cases hprev : metricPrev.lookup report.checkpointName with
  | none =>
    have hnone : prevStart report earlier = none := by rw [prevStart, hprev, Option.bind_none]
    rw [if_pos (by simp [hnone])]
    refine ⟨recorded, by simp only [Metrics.reportBlock, h.prev, hprev, recorded], h.prev, ?_,
      hstarts⟩
    intro key hkey
    simp only [shown, hnone]
    exact h.gauges key hkey
  | some prevCheckpointName =>
    obtain ⟨hname, hprevKey, hne⟩ := metricPrev_keys hprev
    obtain ⟨starts, hlookup, hfirst⟩ := hstarts _ hprevKey
    have hprevStart : starts.lookup report.hash = prevStart report earlier := by
      rw [hfirst, firstStart_cons (fun hsame => hne hsame.1.symm), prevStart, hprev,
        Option.bind_some]
    have hgauge := h.gauges _ hname
    cases hstart : prevStart report earlier with
    | none =>
      rw [if_pos (by simp)]
      rw [hstart] at hprevStart
      refine ⟨recorded, by simp only [Metrics.reportBlock, h.prev, hprev, hlookup, hprevStart,
        recorded], h.prev, ?_, hstarts⟩
      intro key hkey
      simp only [shown, hstart]
      exact h.gauges key hkey
    | some start =>
      rw [hstart] at hprevStart
      by_cases hdated : start ≤ report.checkpoint
      · rw [if_pos (by simpa using hdated)]
        let updated : Metrics Hash := { recorded with
          gauges := metrics.gauges.insert report.checkpointName
            (asMillis (report.checkpoint - start)) }
        have hreport : metrics.reportBlock report.hash report.checkpoint report.checkpointName =
            .ok updated := by
          simp only [Metrics.reportBlock, h.prev, hprev, hlookup, hprevStart, hgauge,
            durationSince, if_neg (Nat.not_lt.mpr hdated), ok_bind, updated, recorded]
        refine ⟨updated, hreport, h.prev, ?_, hstarts⟩
        intro key hkey
        simp only [updated, FiniteMap.lookup_insert, shown, hstart]
        by_cases hsame : key = report.checkpointName
        · rw [if_pos hsame, if_pos hsame.symm]
        · rw [if_neg hsame, if_neg (Ne.symm hsame), h.gauges key hkey]
      · rw [if_neg (by simpa using hdated)]
        have hpanic : metrics.reportBlock report.hash report.checkpoint report.checkpointName =
            .error (.expect "supplied instant is later than self") := by
          have hlookup' : (metrics.starts.modify report.checkpointName
              (AlephNode.recordStart report.hash report.checkpoint)).lookup prevCheckpointName =
                some starts := hlookup
          simp only [Metrics.reportBlock, h.prev, hprev, hlookup', hprevStart, hgauge,
            durationSince, if_pos (Nat.not_le.mp hdated)]
          rfl
        intro hreturns
        obtain ⟨_, hreport⟩ := hreturns
        rw [hpanic] at hreport
        cases hreport

theorem Shows.reportAll (h : Shows metrics []) (history : List (Report Hash)) :
    (Dated history → ∃ metrics', metrics.reportAll history = .ok metrics' ∧
      Shows metrics' history) ∧ (Returns (metrics.reportAll history) → Dated history) := by
  induction history with
  | nil => exact ⟨fun _ => ⟨metrics, rfl, h⟩, fun _ => trivial⟩
  | cons report earlier ih =>
    constructor
    · intro hdated
      obtain ⟨hreport, hearlier⟩ := hdated
      obtain ⟨before, hbefore, hshows⟩ := ih.1 hearlier
      have hstep := hshows.reportBlock report
      rw [if_pos hreport] at hstep
      obtain ⟨after, hafter, hshows'⟩ := hstep
      exact ⟨after, by rw [Metrics.reportAll, hbefore, ok_bind, hafter], hshows'⟩
    · intro hreturns
      obtain ⟨after, hafter⟩ := hreturns
      obtain ⟨before, hbefore, hreport⟩ := bind_eq_ok.mp hafter
      have hearlier := ih.2 ⟨before, hbefore⟩
      obtain ⟨before', hbefore', hshows⟩ := ih.1 hearlier
      rw [hbefore, Except.ok.injEq] at hbefore'
      subst hbefore'
      have hstep := hshows.reportBlock report
      refine ⟨?_, hearlier⟩
      by_contra hlate
      rw [if_neg hlate] at hstep
      exact hstep ⟨after, hreport⟩

end Metrics

section Register
variable {acceptsName : String → Bool} {keys : List String} {registry registry' : Finset String}
  {gauges gauges' : FiniteMap String ℕ} {error : PrometheusError}

def Registrable (acceptsName : String → Bool) (registry : Finset String) (key : String) : Prop :=
  acceptsName ("aleph_" ++ key) = true ∧ "aleph_" ++ key ∉ registry

/-- The names in a registry after the gauges of some keys were registered. -/
def registryWith (keys : List String) (registry : Finset String) : Finset String :=
  (keys.map ("aleph_" ++ ·)).toFinset ∪ registry

inductive Refused (acceptsName : String → Bool) (registry : Finset String) (key : String) :
    PrometheusError → Prop
  | invalidName (invalid : acceptsName ("aleph_" ++ key) = false) :
      Refused acceptsName registry key (.invalidName ("aleph_" ++ key))
  | alreadyReg (valid : acceptsName ("aleph_" ++ key) = true)
      (taken : "aleph_" ++ key ∈ registry) :
      Refused acceptsName registry key (.alreadyReg ("aleph_" ++ key))

theorem registryWith_cons (key : String) (keys : List String) (registry : Finset String) :
    registryWith (key :: keys) registry = registryWith keys (insert ("aleph_" ++ key) registry) := by
  ext name
  simp only [registryWith, List.map_cons, List.toFinset_cons, Finset.mem_union, Finset.mem_insert]
  tauto

theorem mem_insert_name {key key' : String} (hne : key' ≠ key) :
    "aleph_" ++ key' ∈ insert ("aleph_" ++ key) registry ↔ "aleph_" ++ key' ∈ registry := by
  have hname : "aleph_" ++ key' ≠ "aleph_" ++ key := by simpa using hne
  rw [Finset.mem_insert, or_iff_right hname]

theorem registrable_insert {key key' : String} (hne : key' ≠ key) :
    Registrable acceptsName (insert ("aleph_" ++ key) registry) key' ↔
      Registrable acceptsName registry key' := by
  rw [Registrable, mem_insert_name hne, Registrable]

theorem Refused.of_insert {key key' : String} (hne : key' ≠ key)
    (h : Refused acceptsName (insert ("aleph_" ++ key) registry) key' error) :
    Refused acceptsName registry key' error := by
  cases h with
  | invalidName invalid => exact .invalidName invalid
  | alreadyReg valid taken => exact .alreadyReg valid ((mem_insert_name hne).mp taken)

/-- When all gauges could be registered, they show nothing yet. -/
theorem registerGauges_ok (hnodup : keys.Nodup)
    (h : registerGauges acceptsName keys registry gauges = (.ok gauges', registry')) :
    (∀ key ∈ keys, Registrable acceptsName registry key) ∧ registry' = registryWith keys registry ∧
      ∀ key, gauges'.lookup key = if key ∈ keys then some 0 else gauges.lookup key := by
  induction keys generalizing registry gauges with
  | nil =>
    simp only [registerGauges, Prod.mk.injEq, Except.ok.injEq] at h
    simp [← h.1, ← h.2, registryWith]
  | cons key keys ih =>
    obtain ⟨hkey, hnodup⟩ := List.nodup_cons.mp hnodup
    simp only [registerGauges] at h
    split_ifs at h with hname hknown
    · cases congrArg Prod.fst h
    · cases congrArg Prod.fst h
    · obtain ⟨hregistrable, hregistry, hlookup⟩ := ih hnodup h
      refine ⟨?_, hregistry.trans (registryWith_cons key keys registry).symm, ?_⟩
      · intro key' hkey'
        obtain rfl | hkey' := List.mem_cons.mp hkey'
        · exact ⟨by simpa using hname, hknown⟩
        · have hne : key' ≠ key := fun hsame => hkey (hsame ▸ hkey')
          exact (registrable_insert hne).mp (hregistrable key' hkey')
      · intro key'
        rw [hlookup, FiniteMap.lookup_insert]
        by_cases hmem : key' ∈ keys <;> by_cases hsame : key' = key <;> simp [hmem, hsame]

/-- A failure is about the first name that is refused, and the names before it stay taken. -/
theorem registerGauges_error (hnodup : keys.Nodup)
    (h : registerGauges acceptsName keys registry gauges = (.error error, registry')) :
    ∃ earlier key later, keys = earlier ++ key :: later ∧
      (∀ key ∈ earlier, Registrable acceptsName registry key) ∧
      Refused acceptsName registry key error ∧ registry' = registryWith earlier registry := by
  induction keys generalizing registry gauges with
  | nil => cases congrArg Prod.fst h
  | cons key keys ih =>
    obtain ⟨hkey, hnodup⟩ := List.nodup_cons.mp hnodup
    simp only [registerGauges] at h
    split_ifs at h with hname hknown
    · simp only [Prod.mk.injEq, Except.error.injEq] at h
      obtain ⟨rfl, rfl⟩ := h
      exact ⟨[], key, keys, rfl, by simp, .invalidName hname, by simp [registryWith]⟩
    · simp only [Prod.mk.injEq, Except.error.injEq] at h
      obtain ⟨rfl, rfl⟩ := h
      exact ⟨[], key, keys, rfl, by simp, .alreadyReg (by simpa using hname) hknown,
        by simp [registryWith]⟩
    · obtain ⟨earlier, refused, later, rfl, hregistrable, hrefused, hregistry⟩ := ih hnodup h
      have hne : ∀ key' ∈ earlier ++ refused :: later, key' ≠ key :=
        fun key' hkey' hsame => hkey (hsame ▸ hkey')
      refine ⟨key :: earlier, refused, later, rfl, ?_, ?_, ?_⟩
      · intro key' hkey'
        obtain rfl | hkey' := List.mem_cons.mp hkey'
        · exact ⟨by simpa using hname, hknown⟩
        · exact (registrable_insert (hne key' (List.mem_append_left _ hkey'))).mp
            (hregistrable key' hkey')
      · exact hrefused.of_insert (hne refused (by simp))
      · rw [hregistry, registryWith_cons]

end Register

namespace Metrics
variable {Hash : Type} [DecidableEq Hash] {metrics : Metrics Hash}
  {acceptsName : String → Bool} {registry registry' : Finset String} {error : PrometheusError}

theorem register_ok (h : register acceptsName registry = (.ok metrics, registry')) :
    (∀ key ∈ metricKeys, Registrable acceptsName registry key) ∧
      registry' = registryWith metricKeys registry ∧ Shows metrics [] := by
  obtain ⟨result, registry'', hresult⟩ : ∃ result registry'',
      registerGauges acceptsName metricKeys registry ∅ = (result, registry'') := ⟨_, _, rfl⟩
  simp only [register, hresult, Prod.mk.injEq] at h
  cases result with
  | error error => cases h.1
  | ok gauges =>
    obtain ⟨hmetrics, rfl⟩ := h
    cases hmetrics
    obtain ⟨hregistrable, hregistry, hlookup⟩ := registerGauges_ok (by decide) hresult
    refine ⟨hregistrable, hregistry, rfl, ?_, ?_⟩
    · intro key hkey
      rw [hlookup, if_pos hkey]
      rfl
    · intro key hkey
      refine ⟨∅, ?_, fun hash => rfl⟩
      simp only [metricKeys, List.mem_cons, List.not_mem_nil, or_false] at hkey
      rcases hkey with rfl | rfl | rfl | rfl | rfl <;> rfl

omit [DecidableEq Hash] in
theorem register_error
    (h : (register acceptsName registry : Except PrometheusError (Metrics Hash) × _) =
      (.error error, registry')) :
    ∃ earlier key later, metricKeys = earlier ++ key :: later ∧
      (∀ key ∈ earlier, Registrable acceptsName registry key) ∧
      Refused acceptsName registry key error ∧ registry' = registryWith earlier registry := by
  obtain ⟨result, registry'', hresult⟩ : ∃ result registry'',
      registerGauges acceptsName metricKeys registry ∅ = (result, registry'') := ⟨_, _, rfl⟩
  simp only [register, hresult, Prod.mk.injEq] at h
  cases result with
  | ok gauges => cases h.1
  | error error' =>
    obtain ⟨herror, rfl⟩ := h
    cases herror
    exact registerGauges_error (by decide) hresult

/-- Either all gauges are registered, or the first name that is refused is reported and the
names before it stay taken. Once registered, a gauge shows how long the last block took to
get to its checkpoint from the one before, counted from the first time that the block was
there, and a report panics exactly if it is dated before that time. -/
theorem registered_reports_shown (acceptsName : String → Bool) (registry : Finset String) :
    match (register acceptsName registry : Except PrometheusError (Metrics Hash) × _) with
    | (.ok metrics, registry') =>
      (∀ key ∈ metricKeys, Registrable acceptsName registry key) ∧
        registry' = registryWith metricKeys registry ∧
        ∀ history, (Returns (metrics.reportAll history) ↔ Dated history) ∧
          ∀ metrics', metrics.reportAll history = .ok metrics' → Shows metrics' history
    | (.error error, registry') =>
      ∃ earlier key later, metricKeys = earlier ++ key :: later ∧
        (∀ key ∈ earlier, Registrable acceptsName registry key) ∧
        Refused acceptsName registry key error ∧ registry' = registryWith earlier registry := by
  obtain ⟨result, registry', hresult⟩ : ∃ result registry',
      (register acceptsName registry : Except PrometheusError (Metrics Hash) × _) =
        (result, registry') := ⟨_, _, rfl⟩
  rw [hresult]
  cases result with
  | error error => exact register_error hresult
  | ok metrics =>
    obtain ⟨hregistrable, hregistry, hshows⟩ := register_ok hresult
    refine ⟨hregistrable, hregistry, ?_⟩
    intro history
    obtain ⟨hreturns, hdated⟩ := hshows.reportAll history
    constructor
    · refine ⟨hdated, ?_⟩
      intro hhistory
      obtain ⟨metrics', hmetrics', _⟩ := hreturns hhistory
      exact ⟨metrics', hmetrics'⟩
    · intro metrics' hmetrics'
      obtain ⟨metrics'', hmetrics'', hshows'⟩ := hreturns (hdated ⟨metrics', hmetrics'⟩)
      rw [hmetrics', Except.ok.injEq] at hmetrics''
      rw [hmetrics'']
      exact hshows'

/-- A block whose import took three milliseconds, with a registry that accepts all names. -/
theorem registered_reports_shown_imported : ∃ metrics metrics' : Metrics ℕ,
    (register (fun _ => true) ∅).1 = .ok metrics ∧
      metrics.reportAll [⟨7, 5000000, "imported"⟩, ⟨7, 2000000, "importing"⟩] = .ok metrics' ∧
      metrics'.gauges.lookup "imported" = some 3 := by
  have hregistered := @registered_reports_shown ℕ _ (fun _ => true) ∅
  cases hregister : (register (fun _ => true) ∅ : Except PrometheusError (Metrics ℕ) × _) with
  | mk result registry =>
    rw [hregister] at hregistered
    cases result with
    | error error =>
      obtain ⟨_, _, _, _, _, hrefused, _⟩ := hregistered
      cases hrefused with
      | invalidName invalid => cases invalid
      | alreadyReg _ taken => simp at taken
    | ok metrics =>
      obtain ⟨_, _, hreports⟩ := hregistered
      obtain ⟨hreturns, hshows⟩ :=
        hreports [⟨7, 5000000, "imported"⟩, ⟨7, 2000000, "importing"⟩]
      have hprev : prevStart (⟨7, 5000000, "imported"⟩ : Report ℕ)
          [⟨7, 2000000, "importing"⟩] = some 2000000 := by decide
      have hfirst : prevStart (⟨7, 2000000, "importing"⟩ : Report ℕ) [] = none := by decide
      obtain ⟨metrics', hmetrics'⟩ : Returns (metrics.reportAll
          [⟨7, 5000000, "imported"⟩, ⟨7, 2000000, "importing"⟩]) := by
        apply hreturns.mpr
        refine ⟨?_, ?_, trivial⟩
        · intro start hstart
          rw [hprev, Option.some.injEq] at hstart
          rw [← hstart]
          decide
        · intro start hstart
          rw [hfirst] at hstart
          cases hstart
      refine ⟨metrics, metrics', rfl, hmetrics', ?_⟩
      rw [(hshows metrics' hmetrics').gauges "imported" (by decide)]
      simp only [shown, hprev]
      decide

omit [DecidableEq Hash] in
/-- A registry that wants names made of letters, digits, underscores and colons refuses: the
last of the names has a hyphen. -/
theorem register_never_succeeds
    (hnames : ∀ name, acceptsName name = true →
      ∀ c ∈ name.toList, c.isAlphanum = true ∨ c = '_' ∨ c = ':') (registry : Finset String) :
    ∃ error, (register acceptsName registry : Except PrometheusError (Metrics Hash) × _).1 =
      .error error := by
  obtain ⟨result, registry', hresult⟩ : ∃ result registry',
      registerGauges acceptsName metricKeys registry ∅ = (result, registry') := ⟨_, _, rfl⟩
  cases result with
  | error error => exact ⟨error, by simp only [register, hresult]; rfl⟩
  | ok gauges =>
    have haccepted := ((registerGauges_ok (by decide) hresult).1 "aggregation-start" (by decide)).1
    have hhyphen := hnames _ haccepted '-' (by decide)
    simp at hhyphen

end Metrics
end AlephNode
