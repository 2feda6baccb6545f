import UwuContextDb.Content.SqliteTables
import UwuContextDb.Library.SqlLogic

/-! The outbox as its workers see it: the statements that claim rows and finish them, on PostgreSQL and on SQLite. -/

namespace UwuContextDb.Content

open SqlLogic

/-- A row of `context_index_outbox` with the text of its mutation unread; a text of type `P` may fail to be read, and
`last_error` keeps the error. -/
structure OutboxRecord (P : Type) where
  id : ℕ
  mutationJson : P
  uri : Option String
  version : Option MvccVersion
  status : OutboxStatus
  attempts : ℕ
  availableAt : DateTime
  leaseUntil : Option DateTime
  lastError : Option ContextError
  createdAt : DateTime
  updatedAt : DateTime
  finishedAt : Option DateTime

namespace OutboxRecord

variable {P : Type}

/-- `INSERT INTO context_index_outbox`, as `enqueue_pg` and `enqueue_sqlite` write it. -/
def queued (id : ℕ) (payload : P) (uri : Option String) (version : Option MvccVersion) (now : DateTime) : OutboxRecord P :=
  ⟨id, payload, uri, version, .pending, 0, now, none, none, now, now, none⟩

def ofRow (row : OutboxRow) : OutboxRecord IndexMutation :=
  ⟨row.id, row.mutation, some row.uri, row.version, row.status, row.attempts, row.availableAt, row.leaseUntil,
    none, row.createdAt, row.createdAt, none⟩

/-- `status IN ('pending','failed') AND available_at <= now`. -/
def isDue (now : DateTime) (row : OutboxRecord P) : Truth :=
  and3 (some (row.status = .pending || row.status = .failed)) (some (row.availableAt ≤ now))

/-- `status='processing' AND lease_until < now`. -/
def isExpired (now : DateTime) (row : OutboxRecord P) : Truth :=
  and3 (some (row.status = .processing)) (compare3 (fun lease t => decide (lease < t)) row.leaseUntil (some now))

/-- The condition of the subquery on `older`. -/
def blockedBy (row older : OutboxRecord P) : Truth :=
  and3 (and3 (compare3 (fun a b => decide (a = b)) older.uri row.uri)
    (some (!(older.status = .done || older.status = .dead))))
    (or3 (compare3 (fun a b => decide (a < b)) older.version row.version)
      (and3 (compare3 (fun a b => decide (a = b)) older.version row.version) (some (older.createdAt < row.createdAt))))

section Order

def Unfinished (row : OutboxRecord P) : Prop := row.status ≠ .done ∧ row.status ≠ .dead

def Due (now : DateTime) (row : OutboxRecord P) : Prop :=
  (row.status = .pending ∨ row.status = .failed) ∧ row.availableAt ≤ now

def LeaseExpired (now : DateTime) (row : OutboxRecord P) : Prop :=
  row.status = .processing ∧ ∃ lease ∈ row.leaseUntil, lease < now

/-- `older` comes before `row` among the mutations of one URI: by version, then by the time of creation. A deletion has no
version and so no place in this order. -/
def Precedes (older row : OutboxRecord P) : Prop :=
  (∃ uri ∈ older.uri, uri ∈ row.uri) ∧ ∃ v ∈ older.version, ∃ w ∈ row.version, v < w ∨
    v = w ∧ older.createdAt < row.createdAt

structure Eligible (rows : List (OutboxRecord P)) (now : DateTime) (row : OutboxRecord P) : Prop where
  ready : row.Due now ∨ row.LeaseExpired now
  first : ∀ older ∈ rows, older.Unfinished → ¬ older.Precedes row

variable {row older : OutboxRecord P} {now : DateTime}

theorem holds_isDue : holds (row.isDue now) = true ↔ row.Due now := by
  simp [isDue,Due]

theorem holds_isExpired : holds (row.isExpired now) = true ↔ row.LeaseExpired now := by
  simp [isExpired,LeaseExpired]

theorem holds_blockedBy : holds (row.blockedBy older) = true ↔ older.Unfinished ∧ older.Precedes row := by
  simp only [blockedBy,holds_and3,holds_or3,Bool.and_eq_true,Bool.or_eq_true,holds_compare3,
    holds_some,decide_eq_true_eq,Bool.not_eq_true',Bool.or_eq_false_iff,decide_eq_false_iff_not]
  constructor
  · rintro ⟨⟨⟨u,ho,u',hn,rfl⟩,hu⟩,hr⟩
    refine ⟨hu,⟨u,ho,hn⟩,?_⟩
    rcases hr with ⟨v,hv,w,hw,hl⟩ | ⟨⟨v,hv,w,hw,he⟩,hc⟩
    · exact ⟨v,hv,w,hw, .inl hl⟩
    · exact ⟨v,hv,w,hw, .inr ⟨he,hc⟩⟩
  · rintro ⟨hu,⟨u,ho,hn⟩,v,hv,w,hw,hr⟩
    refine ⟨⟨⟨u,ho,u,hn,rfl⟩,hu⟩,?_⟩
    rcases hr with hl | ⟨he,hc⟩
    · exact .inl ⟨v,hv,w,hw,hl⟩
    · exact .inr ⟨⟨v,hv,w,hw,he⟩,hc⟩

end Order

end OutboxRecord

section Selection

variable {P : Type} (rows : List (OutboxRecord P)) (now : DateTime)

/-- The rows that the `WHERE` of the PostgreSQL statement is true for; there `AND` binds closer than `OR`. -/
def selectPostgres : List (OutboxRecord P) :=
  rows.filter (fun row => holds (or3 (row.isDue now) (and3 (row.isExpired now) (not3 (exists3 rows row.blockedBy)))))

/-- The rows that the `WHERE` of the SQLite statement is true for. -/
def selectSqlite : List (OutboxRecord P) :=
  rows.filter (fun row => holds (and3 (or3 (row.isDue now) (row.isExpired now)) (not3 (exists3 rows row.blockedBy))))

variable {rows now}

variable {row : OutboxRecord P}

theorem holds_not_blocked :
    holds (not3 (exists3 rows row.blockedBy)) = true ↔ ∀ older ∈ rows, older.Unfinished → ¬ older.Precedes row := by
  rw [holds_not_exists3]
  apply forall₂_congr
  intro older _
  rw [← Bool.not_eq_true,OutboxRecord.holds_blockedBy,not_and]

theorem mem_selectPostgres : row ∈ selectPostgres rows now ↔
    row ∈ rows ∧ (row.Due now ∨ row.LeaseExpired now ∧ ∀ older ∈ rows, older.Unfinished → ¬ older.Precedes row) := by
  simp only [selectPostgres,List.mem_filter,holds_or3,holds_and3,Bool.or_eq_true,Bool.and_eq_true,
    OutboxRecord.holds_isDue,OutboxRecord.holds_isExpired,holds_not_blocked]

theorem mem_selectSqlite : row ∈ selectSqlite rows now ↔ row ∈ rows ∧ row.Eligible rows now := by
  simp only [selectSqlite,List.mem_filter,holds_or3,holds_and3,Bool.or_eq_true,Bool.and_eq_true,
    OutboxRecord.holds_isDue,OutboxRecord.holds_isExpired,holds_not_blocked]
  exact and_congr_right (fun _ => ⟨fun h => ⟨h.1,h.2⟩,fun h => ⟨h.ready,h.first⟩⟩)

/-- Both statements select the eligible rows exactly if no row that is due has to wait for an older one. -/
theorem claims_select_eligible_iff (rows : List (OutboxRecord P)) (now : DateTime) :
    ({row | row ∈ selectPostgres rows now} = {row | row ∈ rows ∧ row.Eligible rows now} ∧
      {row | row ∈ selectSqlite rows now} = {row | row ∈ rows ∧ row.Eligible rows now}) ↔
    ∀ row ∈ rows, row.Due now → ∀ older ∈ rows, older.Unfinished → ¬ older.Precedes row := by
  have hq : {row | row ∈ selectSqlite rows now} = {row | row ∈ rows ∧ row.Eligible rows now} := by
    funext row
    exact propext mem_selectSqlite
  constructor
  · intro h row hr hd
    have hs : row ∈ {row | row ∈ selectPostgres rows now} := mem_selectPostgres.mpr ⟨hr, .inl hd⟩
    rw [h.1] at hs
    exact hs.2.first
  · intro h
    refine ⟨?_, hq⟩
    apply Set.ext
    intro row
    constructor
    · intro hs
      obtain ⟨hr, hd | ⟨he, hf⟩⟩ := mem_selectPostgres.mp hs
      · exact ⟨hr, .inl hd, h row hr hd⟩
      · exact ⟨hr, .inr he, hf⟩
    · rintro ⟨hr, ha, hf⟩
      apply mem_selectPostgres.mpr
      cases ha with
      | inl hd => exact ⟨hr, .inl hd⟩
      | inr he => exact ⟨hr, .inr ⟨he, hf⟩⟩

def overtakenRows : List (OutboxRecord Unit) :=
  [{ OutboxRecord.queued 0 () (some "uwu://acme/a") (some 1) 0 with status := .failed, attempts := 1, availableAt := 20 },
    OutboxRecord.queued 1 () (some "uwu://acme/a") (some 2) 5]

/-- PostgreSQL claims the later mutation while the earlier one is unfinished; SQLite claims neither. -/
theorem postgres_claims_later : (overtakenRows.getLast?.any (fun row => row.version = some 2) = true ∧
      (selectPostgres overtakenRows 10).map (·.id) = [1] ∧ (selectSqlite overtakenRows 10).map (·.id) = []) ∧
    ¬ ({row | row ∈ selectPostgres overtakenRows 10} = {row | row ∈ overtakenRows ∧ row.Eligible overtakenRows 10} ∧
      {row | row ∈ selectSqlite overtakenRows 10} = {row | row ∈ overtakenRows ∧ row.Eligible overtakenRows 10}) := by
  have hi : (selectPostgres overtakenRows 10).map (·.id) = [1] ∧ (selectSqlite overtakenRows 10).map (·.id) = [] := by
    decide
  refine ⟨⟨by decide, hi⟩, fun h => ?_⟩
  have hs : {row | row ∈ selectPostgres overtakenRows 10} =
      {row | row ∈ selectSqlite overtakenRows 10} := h.1.trans h.2.symm
  obtain ⟨row, hr, -⟩ :=
    List.mem_map.mp (hi.1 ▸ List.mem_singleton.mpr rfl : 1 ∈ (selectPostgres overtakenRows 10).map (·.id))
  have hq : row ∈ {row | row ∈ selectSqlite overtakenRows 10} := hs ▸ hr
  have hd := List.mem_map_of_mem (f := (·.id)) hq
  rw [hi.2] at hd
  exact absurd hd (List.not_mem_nil)

end Selection

end UwuContextDb.Content
