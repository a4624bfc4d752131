import PJS.Lib.Paging
import PJS.Repository.SessionQuery

/-! Reading all sessions that match page by page, over an unchanged store and clock. -/
namespace PJS

section Scan

variable {ν : Type} {predicate : ν → Bool} {resultLimit scanLimit : ℕ}

/-- A scan that reached no limit is a filter. -/
theorem filterScan_of_not_reached {values results found : List ν} {scanned : ℕ}
    (h : filterScan predicate resultLimit scanLimit values scanned results = (found, false)) :
    found = results ++ values.filter predicate := by
  induction values generalizing scanned results with
  | nil =>
    rw [filterScan, Prod.mk.injEq] at h
    rw [← h.1, List.filter_nil, List.append_nil]
  | cons value values ih =>
    rw [filterScan] at h
    by_cases hscan : scanned ≥ scanLimit
    · rw [if_pos hscan] at h
      cases (Prod.mk.inj h).2
    rw [if_neg hscan] at h
    by_cases hp : predicate value = true
    · simp only [hp, if_true] at h
      by_cases hfull : (results ++ [value]).length ≥ resultLimit
      · rw [if_pos hfull] at h
        cases (Prod.mk.inj h).2
      · rw [if_neg hfull] at h
        rw [ih h, List.filter_cons_of_pos hp, List.append_assoc, List.singleton_append]
    · rw [if_neg hp] at h
      rw [ih h, List.filter_cons_of_neg hp]

/-- A scan that reached no limit found fewer than the limit on its results. -/
theorem length_of_not_reached {values results found : List ν} {scanned : ℕ}
    (hresults : results.length < resultLimit)
    (h : filterScan predicate resultLimit scanLimit values scanned results = (found, false)) :
    found.length < resultLimit := by
  induction values generalizing scanned results with
  | nil =>
    rw [filterScan, Prod.mk.injEq] at h
    rw [← h.1]
    exact hresults
  | cons value values ih =>
    rw [filterScan] at h
    by_cases hscan : scanned ≥ scanLimit
    · rw [if_pos hscan] at h
      cases (Prod.mk.inj h).2
    rw [if_neg hscan] at h
    by_cases hp : predicate value = true
    · simp only [hp, if_true] at h
      by_cases hfull : (results ++ [value]).length ≥ resultLimit
      · rw [if_pos hfull] at h
        cases (Prod.mk.inj h).2
      · rw [if_neg hfull] at h
        exact ih (not_le.mp hfull) h
    · rw [if_neg hp] at h
      exact ih hresults h

theorem filterLimited_of_not_reached {values found : List ν}
    (h : filterLimited values predicate resultLimit scanLimit = (found, false)) :
    found = values.filter predicate :=
  filterScan_of_not_reached h

theorem length_filterLimited_of_not_reached {values found : List ν} (hpos : 0 < resultLimit)
    (h : filterLimited values predicate resultLimit scanLimit = (found, false)) :
    found.length < resultLimit := by
  have hresults : ([] : List ν).length < resultLimit := hpos
  exact length_of_not_reached hresults h

end Scan

section Order

/-- The value of the field that sessions are sorted by. -/
def SessionSortField.key (field : SessionSortField) (session : StreamSession) : ℤ :=
  match field with
  | .createdAt => session.createdAt.nanos
  | .updatedAt => session.updatedAt.nanos
  | .streamCount => session.streams.size
  | .totalBytes => session.stats.totalBytes

/-- The order that a query asks for. -/
def SortOrder.InOrder (order : SortOrder) (field : SessionSortField) (a b : StreamSession) : Prop :=
  match order with
  | .ascending => field.key a ≤ field.key b
  | .descending => field.key b ≤ field.key a

theorem isLE_compareByField (a b : StreamSession) (field : SessionSortField) :
    (compareByField a b field).isLE = true ↔ field.key a ≤ field.key b := by
  cases field with
  | createdAt => exact Int.isLE_compare
  | updatedAt => exact Int.isLE_compare
  | streamCount => exact Nat.isLE_compare.trans Int.ofNat_le.symm
  | totalBytes => exact Nat.isLE_compare.trans Int.ofNat_le.symm

theorem swap_compareByField (a b : StreamSession) (field : SessionSortField) :
    (compareByField a b field).swap = compareByField b a field := by
  cases field with
  | createdAt => exact Int.compare_swap _ _
  | updatedAt => exact Int.compare_swap _ _
  | streamCount => exact Nat.compare_swap _ _
  | totalBytes => exact Nat.compare_swap _ _

theorem sortLe_iff (field : SessionSortField) (order : SortOrder) (a b : StreamSession) :
    sortLe field order a b = true ↔ order.InOrder field a b := by
  cases order with
  | ascending => exact isLE_compareByField a b field
  | descending =>
    unfold sortLe
    dsimp only
    rw [swap_compareByField]
    exact isLE_compareByField b a field

theorem SortOrder.InOrder.trans {order : SortOrder} {field : SessionSortField}
    {a b c : StreamSession} (hab : order.InOrder field a b) (hbc : order.InOrder field b c) :
    order.InOrder field a c := by
  cases order with
  | ascending => exact le_trans (α := ℤ) hab hbc
  | descending => exact le_trans (α := ℤ) hbc hab

theorem SortOrder.inOrder_total (order : SortOrder) (field : SessionSortField)
    (a b : StreamSession) : order.InOrder field a b ∨ order.InOrder field b a := by
  cases order with
  | ascending => exact le_total (α := ℤ) _ _
  | descending => exact le_total (α := ℤ) _ _

/-- The sort of a query puts its sessions in order. -/
theorem pairwise_mergeSort_sortLe (field : SessionSortField) (order : SortOrder)
    (sessions : List StreamSession) :
    (sessions.mergeSort (sortLe field order)).Pairwise (order.InOrder field) := by
  refine (List.pairwise_mergeSort (fun a b c hab hbc => ?_) (fun a b => ?_) sessions).imp
    fun h => (sortLe_iff field order _ _).mp h
  · rw [sortLe_iff] at *
    exact hab.trans hbc
  · rw [Bool.or_eq_true, sortLe_iff, sortLe_iff]
    exact order.inOrder_total field a b

end Order

section Pages

variable (lowercase : String → String) (now : DateTime) (store : AssocMap SessionId StreamSession)
  (criteria : SessionQueryCriteria) (sortBy : Option SessionSortField) (sortOrder : SortOrder)

/-- All sessions of the store that match. -/
def matchingSessions : List StreamSession :=
  store.values.filter fun session => matchesCriteria lowercase now session criteria

/-- The matching sessions as a query sorts them. -/
def sortedSessions : List StreamSession :=
  match sortBy with
  | some field => (matchingSessions lowercase now store criteria).mergeSort (sortLe field sortOrder)
  | none => matchingSessions lowercase now store criteria

/-- The page at an offset: the sessions, and whether there are more. -/
def fetchPage (elapsedMs : ℕ → ℕ) (limit offset : ℕ) :
    DomainResult (List StreamSession × Bool) :=
  (findSessionsByCriteria lowercase now store (elapsedMs offset) criteria
    ⟨offset, limit, sortBy, sortOrder⟩).map fun result => (result.sessions, result.hasMore)

theorem sortedSessions_perm :
    (sortedSessions lowercase now store criteria sortBy sortOrder).Perm
      (matchingSessions lowercase now store criteria) := by
  unfold sortedSessions
  cases sortBy with
  | none => exact List.Perm.refl _
  | some field => exact List.mergeSort_perm _ _

theorem length_sortedSessions :
    (sortedSessions lowercase now store criteria sortBy sortOrder).length =
      (matchingSessions lowercase now store criteria).length :=
  (sortedSessions_perm lowercase now store criteria sortBy sortOrder).length_eq

variable {lowercase now store criteria sortBy sortOrder}

/-- A query that is answered, and whose scan reached no limit, answers with a page of the sorted
sessions. -/
theorem findSessionsByCriteria_of_not_reached {elapsedMs : ℕ} {pagination : Pagination}
    {result : SessionQueryResult}
    (h : findSessionsByCriteria lowercase now store elapsedMs criteria pagination = .ok result)
    (hscan : result.scanLimitReached = false) :
    criteria.validate = .ok () ∧ pagination.validate = .ok () ∧
      filterLimited store.values (fun session => matchesCriteria lowercase now session criteria)
        maxResultsLimit maxScanLimit = (matchingSessions lowercase now store criteria, false) ∧
      result.totalCount = (matchingSessions lowercase now store criteria).length := by
  unfold findSessionsByCriteria at h
  cases hcriteria : criteria.validate with
  | error e =>
    rw [hcriteria] at h
    cases h
  | ok _ =>
    cases hpagination : pagination.validate with
    | error e =>
      rw [hcriteria, hpagination] at h
      cases h
    | ok _ =>
      rw [hcriteria, hpagination] at h
      cases hfound : filterLimited store.values
        (fun session => matchesCriteria lowercase now session criteria) maxResultsLimit
        maxScanLimit with
      | mk found reached =>
        rw [hfound] at h
        obtain rfl := Except.ok.inj h
        obtain rfl : reached = false := hscan
        obtain rfl := filterLimited_of_not_reached hfound
        exact ⟨rfl, rfl, rfl, rfl⟩

/-- Where a limit is accepted at one offset, it is accepted at every offset within the results. -/
theorem validate_at {limit offset i : ℕ}
    (h : (Pagination.mk offset limit sortBy sortOrder).validate = .ok ())
    (hi : i < maxResultsLimit) :
    (Pagination.mk i limit sortBy sortOrder).validate = .ok () ∧ 0 < limit := by
  have hresults : maxResultsLimit = 10000 := rfl
  have hlimit : maxPaginationLimit = 1000 := rfl
  have hoffset : maxPaginationOffset = 1000000 := rfl
  unfold Pagination.validate at h ⊢
  split_ifs at h with hzero hlarge hfar hsum
  dsimp only at hzero hlarge ⊢
  rw [if_neg hzero, if_neg hlarge, if_neg (show ¬i > maxPaginationOffset by omega),
    if_neg (show ¬i + limit ≥ 2 ^ 64 by omega)]
  exact ⟨rfl, Nat.pos_of_ne_zero hzero⟩

/-- One page of the sorted sessions. -/
theorem fetchPage_eq {elapsedMs : ℕ → ℕ} {limit offset : ℕ}
    (hcriteria : criteria.validate = .ok ())
    (hpagination : (Pagination.mk offset limit sortBy sortOrder).validate = .ok ())
    (hfound : filterLimited store.values
      (fun session => matchesCriteria lowercase now session criteria) maxResultsLimit maxScanLimit =
        (matchingSessions lowercase now store criteria, false)) :
    fetchPage lowercase now store criteria sortBy sortOrder elapsedMs limit offset =
      .ok (Paging.cut (sortedSessions lowercase now store criteria sortBy sortOrder) limit
        offset) := by
  unfold fetchPage findSessionsByCriteria Paging.cut
  rw [hcriteria, hpagination, hfound, length_sortedSessions]
  rfl

variable (lowercase now store criteria sortBy sortOrder)

/-- While no limit of the scan is reached, the count is the number of matching sessions, and reading
page after page answers with all of them, each once and in the order asked for. -/
theorem paging_exact (limit offset elapsedMs : ℕ) (result : SessionQueryResult)
    (h : findSessionsByCriteria lowercase now store elapsedMs criteria
      ⟨offset, limit, sortBy, sortOrder⟩ = .ok result)
    (hscan : result.scanLimitReached = false) :
    result.totalCount = (matchingSessions lowercase now store criteria).length ∧
      ∀ elapsedMs : ℕ → ℕ, ∃ sessions,
        (∀ fuel, (matchingSessions lowercase now store criteria).length < fuel →
          Paging.readPages (fetchPage lowercase now store criteria sortBy sortOrder elapsedMs limit)
            limit fuel 0 = .ok (some sessions)) ∧
        sessions.Perm (matchingSessions lowercase now store criteria) ∧
        ∀ field, sortBy = some field → sessions.Pairwise (sortOrder.InOrder field) := by
  obtain ⟨hcriteria, hpagination, hfound, hcount⟩ := findSessionsByCriteria_of_not_reached h hscan
  refine ⟨hcount, fun elapsedMs => ⟨sortedSessions lowercase now store criteria sortBy sortOrder,
    ?_, sortedSessions_perm lowercase now store criteria sortBy sortOrder, ?_⟩⟩
  · have hmax : (matchingSessions lowercase now store criteria).length < maxResultsLimit :=
      length_filterLimited_of_not_reached (show 0 < maxResultsLimit by decide) hfound
    have hlength := length_sortedSessions lowercase now store criteria sortBy sortOrder
    have hlimit := (validate_at hpagination (show 0 < maxResultsLimit by decide)).2
    intro fuel hfuel
    refine Paging.readPages_zero hlimit (fun i hi => ?_) (by omega)
    have hi' : i < maxResultsLimit := by omega
    exact fetchPage_eq hcriteria (validate_at hpagination hi').1 hfound
  · rintro field rfl
    exact pairwise_mergeSort_sortLe field sortOrder _

/-- Four sessions, one of which never became active; two of the others sent as much. -/
def tiedSessions : AssocMap SessionId StreamSession where
  entries := [(⟨1⟩, sized ⟨1⟩ .active 5), (⟨2⟩, sized ⟨2⟩ .initializing 7),
    (⟨3⟩, sized ⟨3⟩ .active 3), (⟨4⟩, sized ⟨4⟩ .active 5)]
  nodup := by decide

def activeOnly : SessionQueryCriteria :=
  { SessionQueryCriteria.default with states := some ["active"] }

/-- The three active sessions, two to a page, the largest first. -/
theorem paging_exact_tied :
    ∃ sessions, (∀ fuel, 3 < fuel → Paging.readPages
        (fetchPage id .epoch tiedSessions activeOnly (some .totalBytes) .descending (fun _ => 0) 2)
        2 fuel 0 = .ok (some sessions)) ∧
      sessions.Perm [sized ⟨1⟩ .active 5, sized ⟨3⟩ .active 3, sized ⟨4⟩ .active 5] ∧
      sessions.map (·.stats.totalBytes) = [5, 5, 3] := by
  obtain ⟨-, hpages⟩ := paging_exact id .epoch tiedSessions activeOnly (some .totalBytes)
    .descending 2 0 0 _ rfl rfl
  obtain ⟨sessions, hread, hperm, hordered⟩ := hpages fun _ => 0
  refine ⟨sessions, hread, hperm, ?_⟩
  have hdescending : (sessions.map (·.stats.totalBytes)).Pairwise (· ≥ ·) :=
    List.pairwise_map.mpr ((hordered .totalBytes rfl).imp fun h => Int.ofNat_le.mp h)
  have hsizes : (sessions.map (·.stats.totalBytes)).Perm [5, 5, 3] :=
    (hperm.map _).trans (by decide)
  exact List.Perm.eq_of_pairwise (fun a b _ _ hab hba => le_antisymm hba hab) hdescending
    (by decide) hsizes

end Pages

end PJS
