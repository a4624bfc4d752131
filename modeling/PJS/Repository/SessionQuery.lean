import PJS.Domain.PriorityHeuristic
import PJS.Repository.Repository
import PJS.Session.Accounts

/-! Queries for sessions: what the repository finds, and the two query handlers that list active
sessions. Every call reads the clock at one instant. -/
namespace PJS

def maxScanLimit : ℕ := 10000

def maxResultsLimit : ℕ := 10000

def maxPaginationLimit : ℕ := 1000

def maxPaginationOffset : ℕ := 1000000

def SessionState.asStr : SessionState → String
  | .initializing => "Initializing"
  | .active => "Active"
  | .closing => "Closing"
  | .completed => "Completed"
  | .failed => "Failed"

/-- Criteria for session queries. -/
structure SessionQueryCriteria where
  states : Option (List String)
  createdAfter : Option DateTime
  createdBefore : Option DateTime
  clientInfoPattern : Option String
  hasActiveStreams : Option Bool
  minStreamCount : Option ℕ
  maxStreamCount : Option ℕ
  excludeExpired : Bool

namespace SessionQueryCriteria

def default : SessionQueryCriteria := ⟨none, none, none, none, none, none, none, false⟩

/-- Validate query criteria for logical consistency. -/
def validate (criteria : SessionQueryCriteria) : DomainResult Unit := do
  if let (some min, some max) := (criteria.minStreamCount, criteria.maxStreamCount) then
    if min > max then
      throw (.invalidInput s!"min_stream_count ({min}) > max_stream_count ({max})")
  if let (some after, some before) := (criteria.createdAfter, criteria.createdBefore) then
    if before < after then
      throw (.invalidInput "created_after cannot be after created_before")
  if criteria.states = some [] then
    throw (.invalidInput "states filter cannot be empty (use None for no filter)")

end SessionQueryCriteria

/-- Fields by which session query results can be sorted. -/
inductive SessionSortField where
  | createdAt
  | updatedAt
  | streamCount
  | totalBytes
deriving DecidableEq

inductive SortOrder where
  | ascending
  | descending
deriving DecidableEq

/-- Pagination parameters. -/
structure Pagination where
  offset : ℕ
  limit : ℕ
  sortBy : Option SessionSortField
  sortOrder : SortOrder

/-- Validate pagination parameters against security limits. -/
def Pagination.validate (pagination : Pagination) : DomainResult Unit :=
  if pagination.limit = 0 then .error (.invalidInput "pagination limit must be at least 1")
  else if pagination.limit > maxPaginationLimit then
    .error (.invalidInput
      s!"pagination limit {pagination.limit} exceeds maximum {maxPaginationLimit}")
  else if pagination.offset > maxPaginationOffset then
    .error (.invalidInput
      s!"pagination offset {pagination.offset} exceeds maximum {maxPaginationOffset}")
  else if pagination.offset + pagination.limit ≥ 2 ^ 64 then
    .error (.invalidInput "pagination offset + limit would overflow")
  else .ok ()

/-- Result of session query with metadata. -/
structure SessionQueryResult where
  sessions : List StreamSession
  totalCount : ℕ
  hasMore : Bool
  queryDurationMs : ℕ
  scanLimitReached : Bool

/-- The scan of `filter_limited`, with the results so far. -/
def filterScan {ν : Type} (predicate : ν → Bool) (resultLimit scanLimit : ℕ) :
    List ν → ℕ → List ν → List ν × Bool
  | [], _, results => (results, false)
  | value :: rest, scanned, results =>
    if scanned ≥ scanLimit then (results, true)
    else if predicate value then
      let results := results ++ [value]
      if results.length ≥ resultLimit then (results, true)
      else filterScan predicate resultLimit scanLimit rest (scanned + 1) results
    else filterScan predicate resultLimit scanLimit rest (scanned + 1) results

/-- Values that satisfy the predicate, and whether a limit was reached. -/
def filterLimited {ν : Type} (values : List ν) (predicate : ν → Bool)
    (resultLimit scanLimit : ℕ) : List ν × Bool :=
  filterScan predicate resultLimit scanLimit values 0 []

section Find

variable (lowercase : String → String) (now : DateTime)

/-- Whether a session matches the criteria. `lowercase` is `str::to_lowercase`. -/
def matchesCriteria (session : StreamSession) (criteria : SessionQueryCriteria) : Bool :=
  (criteria.states.all fun states => states.any (eqIgnoreAsciiCase · session.state.asStr)) &&
  !(criteria.excludeExpired && session.isExpired now) &&
  (criteria.createdAfter.all fun after => !decide (session.createdAt < after)) &&
  (criteria.createdBefore.all fun before => !decide (before < session.createdAt)) &&
  (criteria.hasActiveStreams.all fun hasActive =>
    let activeCount := (session.streams.values.filter Stream.isActive).length
    !(hasActive && activeCount == 0) && !(!hasActive && decide (activeCount > 0))) &&
  (criteria.minStreamCount.all fun min => !decide (session.streams.size < min)) &&
  (criteria.maxStreamCount.all fun max => !decide (session.streams.size > max)) &&
  (criteria.clientInfoPattern.all fun pattern =>
    match session.clientInfo with
    | some clientInfo =>
      (lowercase clientInfo).toList.tails.any ((lowercase pattern).toList.isPrefixOf ·)
    | none => false)

/-- Compare sessions by field for sorting. -/
def compareByField (a b : StreamSession) : SessionSortField → Ordering
  | .createdAt => compare a.createdAt.nanos b.createdAt.nanos
  | .updatedAt => compare a.updatedAt.nanos b.updatedAt.nanos
  | .streamCount => compare a.streams.size b.streams.size
  | .totalBytes => compare a.stats.totalBytes b.stats.totalBytes

/-- The order in which a sort puts two sessions. -/
def sortLe (field : SessionSortField) (order : SortOrder) (a b : StreamSession) : Bool :=
  let cmp := compareByField a b field
  match order with
  | .ascending => cmp.isLE
  | .descending => cmp.swap.isLE

/-- Find sessions matching criteria with pagination. The map lists the store in its order of
iteration. -/
def findSessionsByCriteria (store : AssocMap SessionId StreamSession) (elapsedMs : ℕ)
    (criteria : SessionQueryCriteria) (pagination : Pagination) :
    DomainResult SessionQueryResult := do
  criteria.validate
  pagination.validate
  let (filtered, scanLimitReached) := filterLimited store.values
    (fun session => matchesCriteria lowercase now session criteria) maxResultsLimit maxScanLimit
  let totalCount := filtered.length
  let filtered := match pagination.sortBy with
    | some field => filtered.mergeSort (sortLe field pagination.sortOrder)
    | none => filtered
  let paginated := (filtered.drop pagination.offset).take pagination.limit
  let hasMore := pagination.offset + paginated.length < totalCount
  return ⟨paginated, totalCount, hasMore, elapsedMs, scanLimitReached⟩

end Find

section Handlers

/-- Get all active sessions. -/
structure GetActiveSessionsQuery where
  limit : Option ℕ
  offset : Option ℕ

/-- Session filtering criteria. -/
structure SessionFilters where
  state : Option SessionState
  createdAfter : Option DateTime
  createdBefore : Option DateTime
  clientInfo : Option String
  hasActiveStreams : Option Bool

def SessionFilters.default : SessionFilters := ⟨none, none, none, none, none⟩

/-- Search sessions with filters. -/
structure SearchSessionsQuery where
  filters : SessionFilters
  sortBy : Option SessionSortField
  sortOrder : Option SortOrder
  limit : Option ℕ
  offset : Option ℕ

/-- Response for session list queries. -/
structure SessionsResponse where
  sessions : List StreamSession
  totalCount : ℕ
  hasMore : Bool

def SessionsResponse.ofResult (result : SessionQueryResult) : SessionsResponse :=
  ⟨result.sessions, result.totalCount, result.hasMore⟩

def maxPageSize : ℕ := 100

variable (lowercase : String → String) (now : DateTime)
  (store : AssocMap SessionId StreamSession) (elapsedMs : ℕ)

/-- `GetActiveSessionsQuery`. An error of the repository is wrapped as it is. -/
def getActiveSessions (query : GetActiveSessionsQuery) : DomainResult SessionsResponse := do
  let limit := min (query.limit.getD maxPageSize) maxPageSize
  let offset := query.offset.getD 0
  let pagination : Pagination := ⟨offset, limit, none, .ascending⟩
  let result ← findSessionsByCriteria lowercase now store elapsedMs .default pagination
  return .ofResult result

/-- `SearchSessionsQuery`. -/
def searchSessions (query : SearchSessionsQuery) : DomainResult SessionsResponse := do
  let limit := max 1 (min (query.limit.getD maxPageSize) maxPageSize)
  let offset := min (query.offset.getD 0) maxPaginationOffset
  let (states, excludeExpired) := match query.filters.state with
    | some state => (some [state.asStr], false)
    | none => (some [SessionState.active.asStr], true)
  let criteria : SessionQueryCriteria :=
    { SessionQueryCriteria.default with
      states
      excludeExpired
      createdAfter := query.filters.createdAfter
      createdBefore := query.filters.createdBefore
      clientInfoPattern := query.filters.clientInfo
      hasActiveStreams := query.filters.hasActiveStreams }
  let sortOrder := match query.sortOrder with
    | some .descending => SortOrder.descending
    | _ => .ascending
  let pagination : Pagination := ⟨offset, limit, query.sortBy, sortOrder⟩
  let result ← findSessionsByCriteria lowercase now store elapsedMs criteria pagination
  return .ofResult result

end Handlers

section Limits

variable {ν : Type} {predicate : ν → Bool} {resultLimit scanLimit : ℕ}

/-- Below both limits, the scan is a filter. -/
theorem filterScan_eq {values results : List ν} {scanned : ℕ}
    (hscan : scanned + values.length ≤ scanLimit)
    (hresults : results.length + values.length < resultLimit) :
    filterScan predicate resultLimit scanLimit values scanned results =
      (results ++ values.filter predicate, false) := by
  induction values generalizing scanned results with
  | nil => rw [filterScan, List.filter_nil, List.append_nil]
  | cons value values ih =>
    rw [List.length_cons] at hscan hresults
    rw [filterScan, if_neg (by omega)]
    by_cases hp : predicate value = true
    · have hlen : (results ++ [value]).length = results.length + 1 := by simp
      simp only [hp, if_true, hlen]
      rw [if_neg (by omega), ih (by omega) (by omega), List.filter_cons_of_pos hp,
        List.append_assoc, List.singleton_append]
    · rw [if_neg hp, ih (by omega) (by omega), List.filter_cons_of_neg hp]

theorem filterLimited_eq {values : List ν} (h : values.length < maxScanLimit) :
    filterLimited values predicate maxResultsLimit maxScanLimit =
      (values.filter predicate, false) := by
  have hresults : maxResultsLimit = maxScanLimit := rfl
  unfold filterLimited
  rw [filterScan_eq (by omega) (by simp only [List.length_nil]; omega), List.nil_append]

end Limits

section ActiveSessions

variable (lowercase : String → String) (now : DateTime)
  (store : AssocMap SessionId StreamSession)

theorem eqIgnoreAsciiCase_active (state : SessionState) :
    eqIgnoreAsciiCase SessionState.active.asStr state.asStr = (state == .active) := by
  cases state <;> decide

/-- Without criteria every session matches. -/
theorem matchesCriteria_default (session : StreamSession) :
    matchesCriteria lowercase now session .default = true := rfl

/-- The scope of a search without filters: active and not expired. -/
theorem matchesCriteria_active (session : StreamSession) :
    matchesCriteria lowercase now session
      { SessionQueryCriteria.default with
        states := some [SessionState.active.asStr], excludeExpired := true } =
      session.isActive now := by
  unfold matchesCriteria StreamSession.isActive
  simp [SessionQueryCriteria.default, eqIgnoreAsciiCase_active]

/-- One page of the sessions in the order of the store. -/
def page (sessions : List StreamSession) (offset limit : ℕ) : SessionsResponse :=
  let paginated := (sessions.drop offset).take limit
  ⟨paginated, sessions.length, offset + paginated.length < sessions.length⟩

theorem validate_pagination (offset : ℕ) {limit : ℕ} (hpos : 1 ≤ limit)
    (hmax : limit ≤ maxPageSize) (sortOrder : SortOrder) :
    (Pagination.mk offset limit none sortOrder).validate =
      if offset > maxPaginationOffset then
        .error (.invalidInput s!"pagination offset {offset} exceeds maximum {maxPaginationOffset}")
      else .ok () := by
  have hpage : maxPageSize = 100 := rfl
  have hlimit : maxPaginationLimit = 1000 := rfl
  have hmaxOffset : maxPaginationOffset = 1000000 := rfl
  unfold Pagination.validate
  rw [if_neg (show ¬limit = 0 by omega), if_neg (show ¬limit > maxPaginationLimit by omega)]
  by_cases hoffset : offset > maxPaginationOffset
  · rw [if_pos hoffset, if_pos hoffset]
  · rw [if_neg hoffset, if_neg hoffset, if_neg (show ¬offset + limit ≥ 2 ^ 64 by omega)]

theorem findSessionsByCriteria_refused (criteria : SessionQueryCriteria) {pagination : Pagination}
    {e : DomainError} (elapsedMs : ℕ) (hcriteria : criteria.validate = .ok ())
    (hpagination : pagination.validate = .error e) :
    findSessionsByCriteria lowercase now store elapsedMs criteria pagination = .error e := by
  unfold findSessionsByCriteria
  rw [hcriteria, hpagination]
  rfl

/-- Without a sort, a query answers with one page of what matches. -/
theorem findSessionsByCriteria_eq (criteria : SessionQueryCriteria) (sortOrder : SortOrder)
    {offset limit : ℕ} (elapsedMs : ℕ) (hcriteria : criteria.validate = .ok ())
    (hscan : store.values.length < maxScanLimit) (hpos : 1 ≤ limit) (hmax : limit ≤ maxPageSize)
    (hoffset : offset ≤ maxPaginationOffset) :
    (findSessionsByCriteria lowercase now store elapsedMs criteria
      ⟨offset, limit, none, sortOrder⟩).map SessionsResponse.ofResult =
      .ok (page (store.values.filter fun session =>
        matchesCriteria lowercase now session criteria) offset limit) := by
  have hvalid := validate_pagination offset hpos hmax sortOrder
  rw [if_neg (by omega)] at hvalid
  unfold findSessionsByCriteria
  rw [hcriteria, hvalid, filterLimited_eq hscan]
  rfl

variable (sortOrder : Option SortOrder) {limit : Option ℕ}

/-- A page size that is not given is the largest one. -/
theorem pageSize_bounds (hlimit : ∀ l, limit = some l → 1 ≤ l ∧ l ≤ maxPageSize) :
    1 ≤ limit.getD maxPageSize ∧ limit.getD maxPageSize ≤ maxPageSize := by
  cases limit with
  | none => exact ⟨by decide, le_rfl⟩
  | some l => exact hlimit l rfl

theorem getActiveSessions_eq {offset : Option ℕ} (elapsedMs : ℕ)
    (hscan : store.values.length < maxScanLimit)
    (hlimit : ∀ l, limit = some l → 1 ≤ l ∧ l ≤ maxPageSize)
    (hoffset : offset.getD 0 ≤ maxPaginationOffset) :
    getActiveSessions lowercase now store elapsedMs ⟨limit, offset⟩ =
      .ok (page store.values (offset.getD 0) (limit.getD maxPageSize)) := by
  have hbounds := pageSize_bounds hlimit
  have hfind := findSessionsByCriteria_eq lowercase now store .default .ascending elapsedMs rfl
    hscan hbounds.1 hbounds.2 hoffset
  simp only [matchesCriteria_default, List.filter_true] at hfind
  unfold getActiveSessions
  rw [min_eq_left hbounds.2]
  exact hfind

theorem searchSessions_eq (offset : Option ℕ) (elapsedMs : ℕ)
    (hscan : store.values.length < maxScanLimit)
    (hlimit : ∀ l, limit = some l → 1 ≤ l ∧ l ≤ maxPageSize) :
    searchSessions lowercase now store elapsedMs ⟨.default, none, sortOrder, limit, offset⟩ =
      .ok (page (store.values.filter (·.isActive now))
        (min (offset.getD 0) maxPaginationOffset) (limit.getD maxPageSize)) := by
  have hbounds := pageSize_bounds hlimit
  have hfind := findSessionsByCriteria_eq lowercase now store
    { SessionQueryCriteria.default with
      states := some [SessionState.active.asStr], excludeExpired := true }
    (match sortOrder with
      | some .descending => SortOrder.descending
      | _ => .ascending) elapsedMs rfl hscan hbounds.1 hbounds.2
    (min_le_right (offset.getD 0) maxPaginationOffset)
  simp only [matchesCriteria_active] at hfind
  unfold searchSessions
  rw [min_eq_left hbounds.2, max_eq_right hbounds.1]
  exact hfind

/-- Past the last offset the listing of active sessions is refused. -/
theorem getActiveSessions_refused {offset : Option ℕ} (elapsedMs : ℕ)
    (hlimit : ∀ l, limit = some l → 1 ≤ l ∧ l ≤ maxPageSize)
    (hoffset : maxPaginationOffset < offset.getD 0) :
    ∃ e, getActiveSessions lowercase now store elapsedMs ⟨limit, offset⟩ = .error e := by
  have hbounds := pageSize_bounds hlimit
  have hvalid := validate_pagination (offset.getD 0) hbounds.1 hbounds.2 .ascending
  rw [if_pos hoffset] at hvalid
  refine ⟨.invalidInput s!"pagination offset {offset.getD 0} exceeds maximum {maxPaginationOffset}",
    ?_⟩
  have hfind := findSessionsByCriteria_refused lowercase now store .default elapsedMs rfl hvalid
  unfold getActiveSessions
  rw [min_eq_left hbounds.2]
  simp only [hfind]
  rfl

/-- The two listings of active sessions, and what the first of them promises. -/
def ActiveSessionsAgree (elapsedMs : ℕ) (sortOrder : Option SortOrder)
    (limit offset : Option ℕ) : Prop :=
  ∃ response, getActiveSessions lowercase now store elapsedMs ⟨limit, offset⟩ = .ok response ∧
    searchSessions lowercase now store elapsedMs ⟨.default, none, sortOrder, limit, offset⟩ =
      .ok response ∧
    (∀ session ∈ response.sessions, session.isActive now = true) ∧
    response.totalCount = (store.values.filter (·.isActive now)).length

/-- The listing of active sessions filters nothing, and does not clamp its offset: it agrees with
the search exactly where there is nothing to filter or to clamp. -/
theorem activeSessionsAgree_iff (elapsedMs : ℕ) (limit offset : Option ℕ)
    (hscan : store.values.length < maxScanLimit)
    (hlimit : ∀ l, limit = some l → 1 ≤ l ∧ l ≤ maxPageSize) :
    ActiveSessionsAgree lowercase now store elapsedMs sortOrder limit offset ↔
      offset.getD 0 ≤ maxPaginationOffset ∧
        ∀ session ∈ store.values, session.isActive now = true := by
  constructor
  · rintro ⟨response, hget, -, -, hcount⟩
    have hoffset : offset.getD 0 ≤ maxPaginationOffset := by
      by_contra hlt
      obtain ⟨e, he⟩ := getActiveSessions_refused lowercase now store elapsedMs hlimit
        (not_le.mp hlt)
      rw [he] at hget
      cases hget
    refine ⟨hoffset, ?_⟩
    rw [getActiveSessions_eq lowercase now store elapsedMs hscan hlimit hoffset] at hget
    obtain rfl := Except.ok.inj hget
    exact List.length_filter_eq_length_iff.mp hcount.symm
  · rintro ⟨hoffset, hactive⟩
    have hfilter : store.values.filter (·.isActive now) = store.values :=
      List.filter_eq_self.mpr hactive
    have hsearch := searchSessions_eq lowercase now store sortOrder offset elapsedMs hscan hlimit
    rw [hfilter, min_eq_left hoffset] at hsearch
    refine ⟨_, getActiveSessions_eq lowercase now store elapsedMs hscan hlimit hoffset, hsearch,
      ?_, ?_⟩
    · intro session hsession
      exact hactive session (List.mem_of_mem_drop (List.mem_of_mem_take hsession))
    · rw [hfilter]
      rfl

/-- A repository with one session, created at the epoch and in some state. -/
def oneSession (state : SessionState) : AssocMap SessionId StreamSession :=
  ⟨[(⟨0⟩, { StreamSession.atEpoch with state })], List.nodup_singleton _⟩

/-- A session created at the epoch, in some state and with some bytes sent. -/
def sized (id : SessionId) (state : SessionState) (totalBytes : ℕ) : StreamSession :=
  { StreamSession.atEpoch with id, state, stats := { SessionStats.default with totalBytes } }

/-- A repository with three active sessions. -/
def activeSessions : AssocMap SessionId StreamSession where
  entries := [(⟨1⟩, sized ⟨1⟩ .active 5), (⟨2⟩, sized ⟨2⟩ .active 3), (⟨3⟩, sized ⟨3⟩ .active 5)]
  nodup := by decide

/-- The second page of three sessions. -/
theorem activeSessionsAgree_page :
    ActiveSessionsAgree id .epoch activeSessions 0 (some .descending) (some 2) (some 2) :=
  (activeSessionsAgree_iff id .epoch activeSessions (some .descending) 0 (some 2) (some 2)
    (by decide) (by decide)).mpr ⟨by decide, by decide⟩

/-- A session that was created but never activated is listed as active. -/
theorem initializing_listed :
    ¬∀ (lowercase : String → String) (now : DateTime) (store : AssocMap SessionId StreamSession)
      (sortOrder : Option SortOrder) (elapsedMs : ℕ) (limit offset : Option ℕ),
      store.values.length < maxScanLimit → (∀ l, limit = some l → 1 ≤ l ∧ l ≤ maxPageSize) →
      ActiveSessionsAgree lowercase now store elapsedMs sortOrder limit offset := by
  intro h
  have hlimit : ∀ l, (none : Option ℕ) = some l → 1 ≤ l ∧ l ≤ maxPageSize := nofun
  obtain ⟨response, hget, -, hactive, -⟩ :=
    h id .epoch (oneSession .initializing) none 0 none none (by decide) hlimit
  rw [getActiveSessions_eq id .epoch (oneSession .initializing) 0 (by decide) hlimit (by decide)]
    at hget
  obtain rfl := Except.ok.inj hget
  exact absurd (hactive _ (List.mem_singleton_self _)) (by decide)

end ActiveSessions

end PJS
