/-
The explorer's pages of account activity, as in `explorer/src/qmdb.ts`: each page is one query over the
`tx_activity` table, with a byte-encoded cursor taken from the last row of the page before. What the database
answers is a parameter, of which only the meaning of the query's clauses is assumed. Columns of type `UInt64`
decode to bigints, which are natural numbers here.
-/
import Constantinople.Lib.Keyset
import Constantinople.Explorer.Header

namespace Constantinople.Explorer

open Constantinople

/-! ## Queries -/

/-- A row of `tx_activity`. -/
structure ActivityRow where
  account : Bytes
  height : UInt64
  index : UInt64
  role : UInt64
  txDigest : Bytes
  counterparty : Bytes
  value : UInt64
  nonce : UInt64
deriving DecidableEq, Repr

inductive AccountActivityMode
  | all
  | sent
  | received
deriving DecidableEq, Repr

def txActivityRoleSender : Nat := 0

def txActivityRoleReceiver : Nat := 1

def accountPageSize : Nat := 10

def accountCursorBytes : Nat := 24

def activityModeRole : AccountActivityMode → Option Nat
  | .sent => some txActivityRoleSender
  | .received => some txActivityRoleReceiver
  | .all => none

structure ActivityCursor where
  height : Nat
  index : Nat
  role : Nat
deriving DecidableEq, Repr

/-- The condition `activityCursorPredicate` writes. -/
def activityCursorPredicate (cursor : ActivityCursor) (row : ActivityRow) : Bool :=
  row.height.toNat < cursor.height ∨
    (row.height.toNat = cursor.height ∧ row.index.toNat < cursor.index) ∨
    (row.height.toNat = cursor.height ∧ row.index.toNat = cursor.index ∧ row.role.toNat < cursor.role)

/-- The predicates and the limit of a query over the table. -/
structure ActivityQuery where
  account : Bytes
  role : Option Nat
  cursor : Option ActivityCursor
  limit : Nat

/-- The `WHERE` clause. -/
def ActivityQuery.selects (query : ActivityQuery) (row : ActivityRow) : Bool :=
  row.account = query.account && query.role.all (row.role.toNat = ·) && query.cursor.all (activityCursorPredicate · row)

/-- Height, index and role, in the order of the `ORDER BY` clause. -/
def ActivityRow.key (row : ActivityRow) : Nat ×ₗ Nat ×ₗ Nat :=
  toLex (row.height.toNat, toLex (row.index.toNat, row.role.toNat))

/-- The database answers from the table: the selected rows, with keys descending, up to the limit. -/
def Answers (table : List ActivityRow) (sql : ActivityQuery → List ActivityRow) : Prop :=
  ∀ query, ∃ sorted : List ActivityRow, sorted.Perm (table.filter query.selects) ∧
    sorted.Pairwise (fun a b => b.key ≤ a.key) ∧ sql query = sorted.take query.limit

/-! ## Cursors -/

/-- The loop of `writeU64Be`, from the last of `count` bytes down. -/
def writeU64BeLoop (offset : Nat) : (count : Nat) → Bytes → Nat → Bytes
  | 0, bytes, _ => bytes
  | index + 1, bytes, remaining =>
    writeU64BeLoop offset index (setAt bytes (offset + index) [UInt8.ofNat (remaining &&& 0xff)]) (remaining >>> 8)

def writeU64Be (bytes : Bytes) (offset value : Nat) : Bytes := writeU64BeLoop offset 8 bytes value

def encodeActivityCursor (row : ActivityRow) : Bytes :=
  let cursor := List.replicate accountCursorBytes 0
  let cursor := writeU64Be cursor 0 row.height.toNat
  let cursor := writeU64Be cursor 8 row.index.toNat
  writeU64Be cursor 16 row.role.toNat

def decodeActivityCursor (cursor : Bytes) : Except Thrown ActivityCursor := do
  if cursor.length ≠ accountCursorBytes then .error (.error "malformed account activity cursor")
  else
    let height ← readU64Be cursor 0
    let index ← readU64Be cursor 8
    let role ← readU64Be cursor 16
    return ⟨height, index, role⟩

/-! ## Pages -/

inductive Direction
  | sent
  | received
deriving DecidableEq, Repr

structure AccountTransactionRow where
  digest : String
  direction : Direction
  counterparty : String
  value : Nat
  nonce : Nat
  height : Nat
  blockIndex : Nat
deriving DecidableEq, Repr

structure AccountTransactionPage where
  rows : List AccountTransactionRow
  nextCursor : Option Bytes

/-- `Number.MAX_SAFE_INTEGER`. -/
def maxSafeInteger : Nat := 2 ^ 53 - 1

def expectSafeNumber (value : UInt64) (column : String) : Except Thrown Nat :=
  if maxSafeInteger < value.toNat then
    .error (.error ("SQL column " ++ column ++ " exceeds Number.MAX_SAFE_INTEGER"))
  else .ok value.toNat

def expectBytes (value : Bytes) (column : String) (length : Nat) : Except Thrown Bytes := do
  assertByteLength value length column
  return value

def decodeAccountActivityRow (row : ActivityRow) : Except Thrown AccountTransactionRow := do
  let digest ← expectBytes row.txDigest "tx_digest" digestBytes
  let counterparty ← expectBytes row.counterparty "counterparty" accountKeyBytes
  let blockIndex ← expectSafeNumber row.index "index"
  return {
    digest := toHex digest
    direction := if row.role.toNat = txActivityRoleReceiver then .received else .sent
    counterparty := toHex counterparty
    value := row.value.toNat
    nonce := row.nonce.toNat
    height := row.height.toNat
    blockIndex }

def fetchAccountActivityRows (sql : ActivityQuery → List ActivityRow) (account : Bytes) (cursor : Option Bytes)
    (mode : AccountActivityMode) : Except Thrown (List ActivityRow) := do
  let cursor ← cursor.mapM decodeActivityCursor
  return sql ⟨account, activityModeRole mode, cursor, accountPageSize + 1⟩

def parseAccountBytes (account : String) : Except Thrown Bytes :=
  let normalized := (dropHexMarker (trim account.toList)).map Char.toLower
  if normalized.length = 64 ∧ normalized.all isLowerHex then .ok (fromHex normalized)
  else .error (.error "expected a 32-byte hex account key")

def fetchAccountTransactionsPage (sql : ActivityQuery → List ActivityRow) (account : String) (cursor : Option Bytes)
    (mode : AccountActivityMode) : Except Thrown AccountTransactionPage := do
  let accountBytes ← parseAccountBytes account
  let rows ← fetchAccountActivityRows sql accountBytes cursor mode
  let visible := rows.take accountPageSize
  let decoded ← visible.mapM decodeAccountActivityRow
  return ⟨decoded, if accountPageSize < rows.length then visible.getLast?.map encodeActivityCursor else none⟩

/-- Calls for one page after the other, until there is no further cursor: the rows of all pages, or `none` if
more than `calls` calls are needed. -/
def collectPages (fetch : Option Bytes → Except Thrown AccountTransactionPage) :
    (calls : Nat) → Option Bytes → Except Thrown (Option (List AccountTransactionRow))
  | 0, _ => .ok none
  | calls + 1, cursor => do
    let page ← fetch cursor
    match page.nextCursor with
    | none => return some page.rows
    | some next =>
      let rest ← collectPages fetch calls (some next)
      return rest.map (page.rows ++ ·)

/-! ## Account texts -/

/-- Every account key is read from the text that shows it. -/
theorem parseAccountBytes_toHex (key : AccountKey) : parseAccountBytes (toHex key.bytes) = .ok key.bytes := by
  have hdigits : ∀ c ∈ key.bytes.flatMap hexPair, ∃ n < 16, c = Nat.digitChar n := by
    intro c hc
    obtain ⟨byte, -, hc⟩ := List.mem_flatMap.1 hc
    exact exists_digit hc
  have hlower : (key.bytes.flatMap hexPair).map Char.toLower = key.bytes.flatMap hexPair := by
    conv_rhs => rw [← List.map_id (key.bytes.flatMap hexPair)]
    refine List.map_congr_left fun c hc => ?_
    obtain ⟨n, hn, rfl⟩ := hdigits c hc
    exact (digitChar_hex n hn).2.2.1
  have hlen : (key.bytes.flatMap hexPair).length = 64 := by
    rw [List.length_flatMap]
    simp [hexPair, key.size, accountKeySize]
  have hall : (key.bytes.flatMap hexPair).all isLowerHex = true := by
    rw [List.all_eq_true]
    intro c hc
    obtain ⟨n, hn, rfl⟩ := hdigits c hc
    exact (digitChar_hex n hn).2.1
  unfold parseAccountBytes
  simp only [toList_toHex]
  rw [trim_eq_self, dropHexMarker_eq_self, hlower, if_pos ⟨hlen, hall⟩, fromHex_pairs]
  · intro c hc
    obtain ⟨n, hn, rfl⟩ := hdigits c hc
    exact (digitChar_hex n hn).2.2.2.2
  · intro c hc
    obtain ⟨n, hn, rfl⟩ := hdigits c hc
    exact (digitChar_hex n hn).2.2.2.1

/-! ## The cursor of a row -/

/-- The loop overwrites the `count` bytes at the offset. -/
theorem writeU64BeLoop_eq (before after : Bytes) : ∀ {count : Nat} {bytes : Bytes} (value : Nat), bytes.length = count →
    writeU64BeLoop before.length count (before ++ (bytes ++ after)) value = before ++ (toBE count value ++ after) := by
  intro count
  induction count generalizing after with
  | zero =>
    intro bytes value hlen
    rw [List.length_eq_zero_iff.1 hlen]
    rfl
  | succ count ih =>
    intro bytes value hlen
    have hne : bytes ≠ [] := List.ne_nil_of_length_eq_add_one hlen
    obtain ⟨init, last, rfl⟩ : ∃ init last, bytes = init ++ [last] := ⟨_, _, (List.dropLast_append_getLast hne).symm⟩
    have hinit : init.length = count := by simpa using hlen
    have hbyte : UInt8.ofNat (value &&& 0xff) = UInt8.ofNat value := by
      rw [← UInt8.toNat_inj, UInt8.toNat_ofNat', UInt8.toNat_ofNat', Nat.and_two_pow_sub_one_eq_mod value 8]
      omega
    have hset : setAt (before ++ (init ++ [last] ++ after)) (before.length + count) [UInt8.ofNat value] =
        before ++ (init ++ UInt8.ofNat value :: after) := by
      have hoffset : before.length + count = (before ++ init).length := by
        rw [List.length_append, hinit]
      have hreplace : setAt (before ++ init ++ ([last] ++ after)) _ [UInt8.ofNat value] = _ := setAt_replace hoffset rfl
      simpa using hreplace
    rw [writeU64BeLoop, hbyte, hset, ih _ _ hinit, toBE, Nat.shiftRight_eq_div_pow]
    simp

/-- A cursor is the three numbers of the row, in 8 bytes each. -/
theorem encodeActivityCursor_eq (row : ActivityRow) :
    encodeActivityCursor row = toBE 8 row.height.toNat ++ (toBE 8 row.index.toNat ++ (toBE 8 row.role.toNat ++ [])) := by
  have hzeros : (List.replicate 8 (0 : UInt8)).length = 8 := rfl
  have hcursor : List.replicate accountCursorBytes (0 : UInt8) =
      List.replicate 8 0 ++ (List.replicate 8 0 ++ List.replicate 8 0) := rfl
  have hheight := writeU64BeLoop_eq [] (List.replicate 8 0 ++ List.replicate 8 0) row.height.toNat hzeros
  have hindex := writeU64BeLoop_eq (toBE 8 row.height.toNat) (List.replicate 8 0) row.index.toNat hzeros
  have hrole := writeU64BeLoop_eq (toBE 8 row.height.toNat ++ toBE 8 row.index.toNat) [] row.role.toNat hzeros
  rw [List.length_nil, List.nil_append, List.nil_append] at hheight
  rw [length_toBE] at hindex
  rw [List.length_append, length_toBE, length_toBE, List.append_nil, List.append_assoc, List.append_assoc] at hrole
  unfold encodeActivityCursor writeU64Be
  simp only [hcursor, hheight, hindex, hrole]

def ActivityCursor.ofRow (row : ActivityRow) : ActivityCursor := ⟨row.height.toNat, row.index.toNat, row.role.toNat⟩

theorem decodeActivityCursor_encode (row : ActivityRow) :
    decodeActivityCursor (encodeActivityCursor row) = .ok (.ofRow row) := by
  have hlen : (encodeActivityCursor row).length = accountCursorBytes := by
    rw [encodeActivityCursor_eq]
    simp only [List.length_append, length_toBE, List.length_nil]
    rfl
  have c : Cursor (encodeActivityCursor row) 0
      (toBE 8 row.height.toNat ++ (toBE 8 row.index.toNat ++ (toBE 8 row.role.toNat ++ []))) := by
    rw [encodeActivityCursor_eq]
    exact Cursor.start [] _
  have c8 := c.advance (length_toBE 8 _)
  have c16 := c8.advance (length_toBE 8 _)
  unfold decodeActivityCursor
  rw [if_neg (not_not.2 hlen), readU64Be_at c, readU64Be_at c8, readU64Be_at c16]
  rfl

/-- The condition selects the rows with a smaller key. -/
theorem activityCursorPredicate_iff {row last : ActivityRow} :
    activityCursorPredicate (.ofRow last) row = true ↔ row.key < last.key := by
  unfold activityCursorPredicate
  rw [decide_eq_true_iff]
  simp only [ActivityCursor.ofRow, ActivityRow.key, Prod.Lex.toLex_lt_toLex]
  tauto

/-- What the explorer shows of a row. -/
def ActivityRow.shown (row : ActivityRow) : AccountTransactionRow where
  digest := toHex row.txDigest
  direction := if row.role.toNat = txActivityRoleReceiver then .received else .sent
  counterparty := toHex row.counterparty
  value := row.value.toNat
  nonce := row.nonce.toNat
  height := row.height.toNat
  blockIndex := row.index.toNat

theorem decodeAccountActivityRow_ok {row : ActivityRow} (hdigest : row.txDigest.length = digestBytes)
    (hcounterparty : row.counterparty.length = accountKeyBytes) (hindex : row.index.toNat ≤ maxSafeInteger) :
    decodeAccountActivityRow row = .ok row.shown := by
  unfold decodeAccountActivityRow expectBytes assertByteLength expectSafeNumber
  rw [if_neg (not_not.2 hdigest), if_neg (not_not.2 hcounterparty), if_neg (Nat.not_lt.2 hindex)]
  rfl

/-! ## The walk through the pages -/

/-- The conditions that all pages of a walk have in common. -/
def inMode (account : Bytes) (mode : AccountActivityMode) (row : ActivityRow) : Bool :=
  row.account = account && (activityModeRole mode).all (row.role.toNat = ·)

/-- The rows of an account in a mode, newest first. -/
structure Listing (table : List ActivityRow) (account : Bytes) (mode : AccountActivityMode) (rows : List ActivityRow) :
    Prop where
  selected : rows.Perm (table.filter (inMode account mode))
  descending : Keyset.Descending ActivityRow.key rows

section Walk

variable {table rows : List ActivityRow} {account : Bytes} {text : String} {mode : AccountActivityMode}
  {sql : ActivityQuery → List ActivityRow}

/-- The database answers with the next rows of the listing. -/
theorem Listing.answer (h : Listing table account mode rows) (hsql : Answers table sql) (cursor : Option ActivityRow)
    (limit : Nat) :
    sql ⟨account, activityModeRole mode, cursor.map .ofRow, limit⟩ =
      (Keyset.behind ActivityRow.key rows (cursor.map ActivityRow.key)).take limit := by
  obtain ⟨sorted, hperm, hsorted, hanswer⟩ := hsql ⟨account, activityModeRole mode, cursor.map .ofRow, limit⟩
  rw [hanswer]
  have hbehind : (Keyset.behind ActivityRow.key rows (cursor.map ActivityRow.key)).Perm
      (table.filter (ActivityQuery.selects ⟨account, activityModeRole mode, cursor.map .ofRow, limit⟩)) := by
    cases cursor with
    | none =>
      refine h.selected.trans (List.Perm.of_eq (List.filter_congr fun row _ => ?_))
      simp [ActivityQuery.selects, inMode]
    | some last =>
      have hfilter := h.selected.filter fun row => row.key < last.key
      rw [List.filter_filter] at hfilter
      refine hfilter.trans (List.Perm.of_eq (List.filter_congr fun row _ => ?_))
      have hpredicate : activityCursorPredicate (.ofRow last) row = decide (row.key < last.key) := by
        rw [Bool.eq_iff_iff, activityCursorPredicate_iff, decide_eq_true_iff]
      rw [ActivityQuery.selects, Option.map_some, Option.all_some, hpredicate, Bool.and_comm]
      rfl
  -- the same rows in descending order, which is unique as the keys are distinct
  rw [(h.descending.behind _).eq_of_perm hsorted (hperm.trans hbehind.symm)]

theorem Listing.fetched (h : Listing table account mode rows) (hsql : Answers table sql) (cursor : Option ActivityRow) :
    fetchAccountActivityRows sql account (cursor.map encodeActivityCursor) mode =
      .ok ((Keyset.behind ActivityRow.key rows (cursor.map ActivityRow.key)).take (accountPageSize + 1)) := by
  have hcursor : (cursor.map encodeActivityCursor).mapM decodeActivityCursor = .ok (cursor.map .ofRow) := by
    cases cursor with
    | none => rfl
    | some row =>
      rw [Option.map_some, Option.mapM_some, decodeActivityCursor_encode]
      rfl
  unfold fetchAccountActivityRows
  rw [hcursor, ← h.answer hsql]
  rfl

/-- The row a further page starts behind. -/
def lastVisible (fetched : List ActivityRow) : Option ActivityRow :=
  if accountPageSize < fetched.length then (fetched.take accountPageSize).getLast? else none

theorem fetchAccountTransactionsPage_eq (htext : parseAccountBytes text = .ok account) {cursor : Option Bytes}
    {fetched : List ActivityRow}
    (h : fetchAccountActivityRows sql account cursor mode = .ok fetched)
    (hshown : ∀ row ∈ fetched, decodeAccountActivityRow row = .ok row.shown) :
    fetchAccountTransactionsPage sql text cursor mode =
      .ok ⟨(fetched.take accountPageSize).map ActivityRow.shown, (lastVisible fetched).map encodeActivityCursor⟩ := by
  unfold fetchAccountTransactionsPage lastVisible
  rw [htext, apply_ite (Option.map encodeActivityCursor)]
  simp only [bind, Except.bind]
  rw [h]
  simp only
  rw [mapM_of_forall₂ (List.forall₂_same.2 fun row hrow => hshown row (List.mem_of_mem_take hrow))]
  rfl

theorem page_eq (rows : List ActivityRow) (cursor : Option (Nat ×ₗ Nat ×ₗ Nat)) :
    Keyset.page ActivityRow.key accountPageSize rows cursor =
      ⟨((Keyset.behind ActivityRow.key rows cursor).take (accountPageSize + 1)).take accountPageSize,
        (lastVisible ((Keyset.behind ActivityRow.key rows cursor).take (accountPageSize + 1))).map ActivityRow.key⟩ := by
  unfold Keyset.page lastVisible
  rw [apply_ite (Option.map ActivityRow.key)]
  rfl

/-- Whoever follows the explorer's cursors collects what the pages of the listing hold. -/
theorem Listing.collect_of_follow (h : Listing table account mode rows) (hsql : Answers table sql)
    (htext : parseAccountBytes text = .ok account)
    (hshown : ∀ row ∈ rows, decodeAccountActivityRow row = .ok row.shown) :
    ∀ {calls : Nat} {cursor : Option ActivityRow} {collected : List ActivityRow},
      Keyset.follow (Keyset.page ActivityRow.key accountPageSize rows) calls (cursor.map ActivityRow.key) =
        some collected →
      collectPages (fun cursor => fetchAccountTransactionsPage sql text cursor mode) calls
        (cursor.map encodeActivityCursor) = .ok (some (collected.map ActivityRow.shown)) := by
  intro calls
  -- on the calls that are left, for every cursor that is the one of a row
  induction calls with
  | zero =>
    intro cursor collected hfollow
    cases hfollow
  | succ calls ih =>
    intro cursor collected hfollow
    have hmem : ∀ row ∈ (Keyset.behind ActivityRow.key rows (cursor.map ActivityRow.key)).take (accountPageSize + 1),
        decodeAccountActivityRow row = .ok row.shown := by
      intro row hrow
      exact hshown row (Keyset.behind_subset _ _ (List.mem_of_mem_take hrow))
    have hpage := fetchAccountTransactionsPage_eq htext (h.fetched hsql cursor) hmem
    rw [Keyset.follow, page_eq] at hfollow
    rw [collectPages, hpage]
    generalize (Keyset.behind ActivityRow.key rows (cursor.map ActivityRow.key)).take (accountPageSize + 1) = fetched
      at hfollow
    cases hlast : lastVisible fetched with
    | none =>
      rw [hlast] at hfollow
      cases hfollow
      simp only [bind, Except.bind]
      rfl
    | some last =>
      rw [hlast] at hfollow
      obtain ⟨rest, hrest, rfl⟩ := Option.map_eq_some_iff.1 hfollow
      have hnext : collectPages _ calls (Option.map encodeActivityCursor (some last)) = _ := ih hrest
      rw [Option.map_some] at hnext
      simp only [bind, Except.bind, Option.map_some, hnext]
      rw [List.map_append]
      rfl

/-- Calling for pages until there is no cursor ends, with the whole listing. -/
theorem Listing.collect (h : Listing table account mode rows) (hsql : Answers table sql)
    (htext : parseAccountBytes text = .ok account)
    (hshown : ∀ row ∈ rows, decodeAccountActivityRow row = .ok row.shown)
    {calls : Nat} (hcalls : rows.length < calls) :
    collectPages (fun cursor => fetchAccountTransactionsPage sql text cursor mode) calls none =
      .ok (some (rows.map ActivityRow.shown)) := by
  have hfollow : Keyset.follow (Keyset.page ActivityRow.key accountPageSize rows) calls
      (Option.map ActivityRow.key none) = some rows := h.descending.follow_all (by decide) hcalls
  have hcollect : collectPages _ calls (Option.map encodeActivityCursor none) = _ :=
    h.collect_of_follow hsql htext hshown hfollow
  exact hcollect

end Walk

end Constantinople.Explorer
