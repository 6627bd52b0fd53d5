/-
Looking a transaction up in the index, as in `crates/indexer/src/client.rs`. The row that the index gives
for a digest is not trusted: its text has to be hexadecimal, and the body in front of the signature has to
hash to the digest. So nothing but the transaction with that digest is ever returned, and for a row that
the indexer wrote the transaction is.
-/
import Constantinople.Consensus.Binding
import Constantinople.Indexer.Queue

namespace Constantinople

variable {C D : Type}

/-! ## Lookups -/

/-- The errors a transaction lookup ends with. -/
inductive ReadError
  | sql (message : String)
  | sqlRow (message : String)
  | hex (message : String)
  | codec (error : CodecError)
deriving DecidableEq, Repr

/-- `str::as_bytes`: a text in UTF-8. -/
def asBytes (text : String) : Bytes := text.toList.flatMap String.utf8EncodeChar

def hexTable : List Char := "0123456789abcdef".toList

def hexLower (bytes : Bytes) : String :=
  String.ofList (bytes.flatMap fun (byte : UInt8) =>
    [hexTable.getD (byte >>> 4).toNat '0', hexTable.getD (byte &&& 0x0f).toNat '0'])

def decodeHexNibble (byte : UInt8) : Except ReadError UInt8 :=
  if 48 ≤ byte ∧ byte ≤ 57 then .ok (byte - 48)
  else if 97 ≤ byte ∧ byte ≤ 102 then .ok (byte - 97 + 10)
  else if 65 ≤ byte ∧ byte ≤ 70 then .ok (byte - 65 + 10)
  else .error (.hex ("invalid hex character 0x" ++ hexLower [byte]))

/-- The loop over `chunks_exact(2)`, which leaves out a last single byte. -/
def decodeHexPairs : Bytes → Except ReadError Bytes
  | first :: second :: rest =>
    match decodeHexNibble first with
    | .error error => .error error
    | .ok high =>
      match decodeHexNibble second with
      | .error error => .error error
      | .ok low =>
        match decodeHexPairs rest with
        | .error error => .error error
        | .ok out => .ok ((high <<< 4 ||| low) :: out)
  | _ => .ok []

def decodeHex (value : String) : Except ReadError Bytes :=
  let bytes := asBytes value
  if bytes.length % 2 ≠ 0 then .error (.hex "odd number of hex characters") else decodeHexPairs bytes

def verifySignedTransactionDigest (H : Hasher D) (bytes : Bytes) (digest : D) : Except ReadError Unit :=
  let bodyLen := Transaction.size
  if bytes.length < bodyLen then
    .error (.sqlRow ("tx_meta.body_hex signed transaction is " ++ toString bytes.length ++ " bytes, shorter than " ++
      toString bodyLen ++ "-byte transaction body"))
  else if H.bytes (H.hash (bytes.take bodyLen)) ≠ H.bytes digest then
    .error (.sqlRow "tx_meta.body_hex transaction body does not match tx_digest")
  else .ok ()

/-- The only column of a record batch: texts or nulls, or rows of another type. -/
inductive BodyColumn
  | utf8 (values : List (Option String))
  | other (rows : Nat)

def BodyColumn.numRows : BodyColumn → Nat
  | utf8 values => values.length
  | other rows => rows

/-- The loop over the batches: the first row there is decides. -/
def firstBody (H : Hasher D) (digest : D) : List BodyColumn → Except ReadError (Option Bytes)
  | [] => .ok none
  | .other 0 :: batches => firstBody H digest batches
  | .other (_ + 1) :: _ => .error (.sqlRow "tx_meta.body_hex must be Utf8")
  | .utf8 [] :: batches => firstBody H digest batches
  | .utf8 (none :: _) :: _ => .error (.sqlRow "tx_meta.body_hex must not be null")
  | .utf8 (some value :: _) :: _ =>
    match decodeHex value with
    | .error error => .error error
    | .ok bytes =>
      match verifySignedTransactionDigest H bytes digest with
      | .error error => .error error
      | .ok () => .ok (some bytes)

def selectBody (H : Hasher D) (digest : D) : String :=
  "SELECT body_hex FROM tx_meta WHERE tx_digest = X'" ++ hexLower (H.bytes digest) ++ "' LIMIT 1"

/-- What the index answers to a query: nothing is assumed of it. -/
abbrev SqlContext := String → Except ReadError (List BodyColumn)

def IndexerClient.transactionBytes (H : Hasher D) (sql : SqlContext) (digest : D) : Except ReadError (Option Bytes) :=
  match sql (selectBody H digest) with
  | .error error => .error error
  | .ok batches => firstBody H digest batches

/-- `codec::from_bytes` reads a value and leaves what follows it. -/
def IndexerClient.transaction (E : Env D) (sql : SqlContext) (digest : D) : Except ReadError (Option (SignedTransaction D)) :=
  match IndexerClient.transactionBytes E.hasher sql digest with
  | .error error => .error error
  | .ok none => .ok none
  | .ok (some bytes) =>
    match SignedTransaction.read E.crypto E.hasher bytes with
    | .error error => .error (.codec error)
    | .ok (transaction, _) => .ok (some transaction)

/-- The cell of `encode_tx_meta_row` that holds the signed transaction. -/
def TxMetaRow.bodyHex (row : TxMetaRow D) : String := hexLower row.body

/-! ## Hexadecimal text -/

/-- A digit is one byte of text, which reads as the digit. -/
theorem decodeHexNibble_table : ∀ n < 16, ∃ code, String.utf8EncodeChar (hexTable.getD n '0') = [code] ∧
    decodeHexNibble code = .ok (UInt8.ofNat n) := by
  intro n hn
  interval_cases n <;> exact ⟨_, rfl, rfl⟩

theorem toNat_nibbles (byte : UInt8) :
    UInt8.ofNat (byte >>> 4).toNat <<< 4 ||| UInt8.ofNat (byte &&& 0x0f).toNat = byte := by
  have hbyte := byte.toNat_lt
  have hhigh : (byte >>> 4).toNat = byte.toNat / 16 := UInt8.toNat_shiftRight_of_lt (by decide)
  have hlow : (byte &&& 0x0f).toNat = byte.toNat % 16 := Nat.and_two_pow_sub_one_eq_mod byte.toNat 4
  have hfour : (4 : UInt8).toNat = 4 := rfl
  rw [UInt8.ofNat_toNat, UInt8.ofNat_toNat, ← UInt8.toNat_inj, UInt8.toNat_shiftLeft_or (by decide)]
  · rw [hhigh, hlow, hfour]
    omega
  · rw [hhigh, hfour]
    omega
  · rw [hlow, hfour]
    omega

/-- The text written for some bytes has two bytes for each, and reads back. -/
theorem decodeHex_hexLower (bytes : Bytes) : decodeHex (hexLower bytes) = .ok bytes := by
  have hpairs : (asBytes (hexLower bytes)).length = 2 * bytes.length ∧
      decodeHexPairs (asBytes (hexLower bytes)) = .ok bytes := by
    unfold asBytes hexLower
    rw [String.toList_ofList]
    induction bytes with
    | nil => exact ⟨rfl, rfl⟩
    | cons byte bytes ih =>
      obtain ⟨hlength, hdecode⟩ := ih
      have hbyte := byte.toNat_lt
      obtain ⟨high, hhigh, hhighDigit⟩ := decodeHexNibble_table (byte >>> 4).toNat
        (by rw [UInt8.toNat_shiftRight_of_lt (by decide), show (4 : UInt8).toNat = 4 from rfl]; omega)
      obtain ⟨low, hlow, hlowDigit⟩ := decodeHexNibble_table (byte &&& 0x0f).toNat
        (by rw [show (byte &&& 0x0f).toNat = byte.toNat % 16 from Nat.and_two_pow_sub_one_eq_mod byte.toNat 4]; omega)
      simp only [List.flatMap_cons, List.cons_append, List.nil_append, hhigh, hlow]
      constructor
      · rw [List.length_cons, List.length_cons, hlength, List.length_cons]
        omega
      · simp only [decodeHexPairs, hhighDigit, hlowDigit, hdecode, toNat_nibbles]
  obtain ⟨hlength, hdecode⟩ := hpairs
  unfold decodeHex
  simp only
  rw [if_neg (by omega), hdecode]

/-! ## Lookups are authentic -/

theorem verifySignedTransactionDigest_ok {H : Hasher D} {bytes : Bytes} {digest : D} :
    verifySignedTransactionDigest H bytes digest = .ok () ↔
      Transaction.size ≤ bytes.length ∧ H.bytes (H.hash (bytes.take Transaction.size)) = H.bytes digest := by
  unfold verifySignedTransactionDigest
  simp only
  constructor
  · intro h
    split at h
    · cases h
    · rename_i hlen
      split at h
      · cases h
      · rename_i heq
        exact ⟨Nat.le_of_not_lt hlen, not_not.1 heq⟩
  · rintro ⟨hlen, heq⟩
    rw [if_neg (Nat.not_lt.2 hlen), if_neg (not_not.2 heq)]

/-- What any list of batches yields has been checked against the digest. -/
theorem firstBody_some {H : Hasher D} {digest : D} {bytes : Bytes} {batches : List BodyColumn}
    (h : firstBody H digest batches = .ok (some bytes)) : verifySignedTransactionDigest H bytes digest = .ok () := by
  induction batches with
  | nil => cases h
  | cons batch batches ih =>
    rcases batch with (_ | ⟨_ | value, values⟩) | (_ | rows)
    · exact ih h
    · cases h
    · simp only [firstBody] at h
      split at h
      · cases h
      split at h
      · cases h
      · rename_i hverify
        cases h
        exact hverify
    · exact ih h
    · cases h

theorem firstBody_append {H : Hasher D} {digest : D} {empties batches : List BodyColumn}
    (h : ∀ batch ∈ empties, batch.numRows = 0) : firstBody H digest (empties ++ batches) = firstBody H digest batches := by
  induction empties with
  | nil => rfl
  | cons batch empties ih =>
    obtain ⟨hbatch, hrest⟩ := List.forall_mem_cons.1 h
    rcases batch with (_ | ⟨value, values⟩) | (_ | rows)
    · exact ih hrest
    · cases hbatch
    · exact ih hrest
    · cases hbatch

theorem IndexerClient.transaction_some {E : Env D} {sql : SqlContext} {digest : D} {signed : SignedTransaction D}
    (h : IndexerClient.transaction E sql digest = .ok (some signed)) :
    signed.messageDigest = E.hasher.hash signed.value.write ∧
      E.hasher.bytes signed.messageDigest = E.hasher.bytes digest := by
  unfold IndexerClient.transaction at h
  split at h
  · cases h
  · cases h
  rename_i bytes hbytes
  split at h
  · cases h
  rename_i transaction rest hread
  cases h
  obtain ⟨hdigest, hwrite⟩ := SignedTransaction.read_ok hread
  unfold IndexerClient.transactionBytes at hbytes
  split at hbytes
  · cases hbytes
  obtain ⟨-, hmatch⟩ := verifySignedTransactionDigest_ok.1 (firstBody_some hbytes)
  constructor
  · rw [hdigest, hwrite]
  · rw [hdigest, hmatch]

/-- A stored text of a transaction's bytes is found, whatever empty batches come before it. -/
theorem IndexerClient.transaction_stored {E : Env D} {lazy : LazySignedTransaction D} {signed : SignedTransaction D}
    (hformed : lazy.Formed E) (hget : lazy.get E = some signed) {sql : SqlContext} {empties rest : List BodyColumn}
    {more : List (Option String)} (hempty : ∀ batch ∈ empties, batch.numRows = 0)
    (hsql : sql (selectBody E.hasher signed.messageDigest) =
      .ok (empties ++ .utf8 (some (hexLower lazy.encodedSignedTransaction) :: more) :: rest)) :
    IndexerClient.transaction E sql signed.messageDigest = .ok (some (signed.onWire E.hasher)) := by
  obtain ⟨hdecode, hsame⟩ := hformed.decode_encoded hget
  have hread := Reader.decode_ok.1 hdecode
  obtain ⟨hdigest, hwrite⟩ := SignedTransaction.read_ok hread
  have hverify : verifySignedTransactionDigest E.hasher lazy.encodedSignedTransaction signed.messageDigest = .ok () := by
    apply verifySignedTransactionDigest_ok.2
    constructor
    · have hlength := congrArg List.length hwrite
      rw [Transaction.length_write, List.length_take] at hlength
      omega
    · rw [hsame.digest, hdigest]
  unfold IndexerClient.transaction IndexerClient.transactionBytes
  simp only [hsql, firstBody_append hempty, firstBody, decodeHex_hexLower, hverify, hread]

/-- A transaction row holds the bytes of a transaction of the body, under its digest. -/
theorem txMeta_mem_rows {E : Env D} {block : SealedBlock C D} {now : Int} {rows : IndexedBlockRows D}
    (hrows : encodeIndexedBlockRowsAt E block now = .ok rows)
    (hseal : ∀ value, .new value ∈ block.inner.body → value.messageDigest = value.value.hashSlow E.hasher)
    {ts : List (PreparedTransfer D)}
    (hprep : block.inner.body.map (fun t => (t.get E).bind (prepareTransfer E.crypto.sha256)) = ts.map some)
    {row : TxMetaRow D} (hrow : .txMeta row ∈ rows.sql) :
    ∃ lazy ∈ block.inner.body, ∃ signed, lazy.get E = some signed ∧ row.digest = signed.messageDigest ∧
      row.body = lazy.encodedSignedTransaction := by
  obtain ⟨-, appendStart, header, hsql⟩ := encodeIndexedBlockRowsAt_ok hrows
  rw [hsql] at hrow
  rcases List.mem_cons.1 hrow with hrow | hrow
  · cases hrow
  obtain ⟨⟨tx, i⟩, hentry, hrow⟩ := List.mem_flatMap.1 hrow
  obtain rfl := txMeta_mem_transactionRows hrow
  obtain ⟨⟨lazy, j⟩, hlazy, htx⟩ := List.mem_filterMap.1 (List.fst_mem_of_mem_zipIdx hentry)
  have hmem := List.fst_mem_of_mem_zipIdx hlazy
  obtain ⟨signed, t, hget, ht⟩ := prepared_of_mem hprep hmem
  have hindex := indexTransaction_of_prepared j (fun value hvalue => hseal value (hvalue ▸ hmem))
    (Option.bind_eq_some_iff.2 ⟨signed, hget, ht⟩)
  obtain rfl := Option.some.inj (htx.symm.trans hindex)
  exact ⟨lazy, hmem, signed, hget, (prepareTransfer_some ht).2, rfl⟩

/-- Whatever the index answers, a lookup that returns a transaction returns one with the digest asked for,
with the fields of the only bytes that hash to it. And for each row that the indexer writes for a verified
block, the stored text decodes to the stored bytes, and the lookup returns the block's own transaction. -/
theorem lookup_not_substituted [DecidableEq D] (A : Application D) (hhash : Function.Injective A.env.hasher.hash)
    (hbytes : Function.Injective A.env.hasher.bytes) :
    (∀ sql digest signed, IndexerClient.transaction A.env sql digest = .ok (some signed) →
      signed.messageDigest = digest ∧
      (∀ preimage, A.env.hasher.hash preimage = digest ↔ preimage = signed.value.write) ∧
      ∀ t : Transaction, t.hashSlow A.env.hasher = digest → t.Agrees signed.value) ∧
    (∀ rng (block parent : SealedBlock C D) sb tb dbs now rows,
      A.verifyChild rng block parent sb tb = .ok (some dbs) → (∀ t ∈ block.inner.body, t.Formed A.env) →
      encodeIndexedBlockRowsAt A.env block now = .ok rows →
      ∀ row, .txMeta row ∈ rows.sql → decodeHex row.bodyHex = .ok row.body ∧
        ∃ lazy ∈ block.inner.body, ∃ signed, lazy.get A.env = some signed ∧ row.digest = signed.messageDigest ∧
          row.body = lazy.encodedSignedTransaction ∧
          ∀ sql empties more rest, (∀ batch ∈ empties, batch.numRows = 0) →
            sql (selectBody A.env.hasher row.digest) = .ok (empties ++ .utf8 (some row.bodyHex :: more) :: rest) →
            ∃ found, IndexerClient.transaction A.env sql row.digest = .ok (some found) ∧
              SignedTransaction.Same A.env.crypto signed found) := by
  constructor
  · intro sql digest signed h
    obtain ⟨hhashed, hmatch⟩ := IndexerClient.transaction_some h
    obtain rfl := hbytes hmatch
    have hunique : ∀ preimage, A.env.hasher.hash preimage = signed.messageDigest ↔ preimage = signed.value.write := by
      intro preimage
      rw [hhashed]
      exact hhash.eq_iff
    refine ⟨rfl, hunique, fun t ht => ?_⟩
    exact Transaction.agrees_of_write ((hunique t.write).1 ht)
  · intro rng block parent sb tb dbs now rows hverify hformed hrows row hrow
    obtain ⟨ts, hprep, -⟩ := verifyChild_appends hverify
    have hseal : ∀ value, .new value ∈ block.inner.body → value.messageDigest = value.value.hashSlow A.env.hasher :=
      fun value hvalue => SignedTransaction.Formed.messageDigest_eq (hformed _ hvalue)
    refine ⟨decodeHex_hexLower row.body, ?_⟩
    obtain ⟨lazy, hlazy, signed, hget, hdigest, hbody⟩ := txMeta_mem_rows hrows hseal hprep hrow
    refine ⟨lazy, hlazy, signed, hget, hdigest, hbody, ?_⟩
    intro sql empties more rest hempty hsql
    rw [TxMetaRow.bodyHex, hdigest, hbody] at hsql
    refine ⟨signed.onWire A.env.hasher, ?_, ((hformed lazy hlazy).decode_encoded hget).2⟩
    rw [hdigest]
    exact IndexerClient.transaction_stored (hformed lazy hlazy) hget hempty hsql

/-! ## A small instance -/

/-- An index that answers every query with one row, after an empty batch. -/
def oneRow (text : String) : SqlContext := fun _ => .ok [.other 0, .utf8 [some text]]

set_option maxRecDepth 20000 in
/-- The row of a block with one transaction is found under its digest. -/
theorem lookup_not_substituted_sample :
    let block := (spellingChild 0).sealWith spellingApplication.env spellingCodecs
    ∃ rows row found, encodeIndexedBlockRowsAt spellingApplication.env block 0 = .ok rows ∧ .txMeta row ∈ rows.sql ∧
      IndexerClient.transaction spellingApplication.env (oneRow row.bodyHex) row.digest = .ok (some found) ∧
      found.messageDigest = row.digest ∧ found.value.value = 5 := by
  intro block
  obtain ⟨hsound, hcomplete⟩ := lookup_not_substituted (C := Unit) spellingApplication Function.injective_id
    Function.injective_id
  have hformed : ∀ t ∈ block.inner.body, t.Formed spellingApplication.env := by
    intro t ht
    obtain rfl := List.mem_singleton.1 ht
    refine ⟨rfl, ?_, rfl⟩
    rintro key ⟨⟩
    rfl
  obtain ⟨rows, hrows, row, hrow⟩ : ∃ rows, encodeIndexedBlockRowsAt spellingApplication.env block 0 = .ok rows ∧
      ∃ row, .txMeta row ∈ rows.sql :=
    ⟨_, rfl, _, List.mem_cons_of_mem _ (List.mem_cons_self ..)⟩
  obtain ⟨-, lazy, hlazy, signed, hget, -, -, hlookup⟩ := hcomplete 0 block spellingGenesis ⟨fun _ => none, []⟩
    ⟨[.commit none 0], [], 0⟩ _ 0 rows rfl hformed hrows row hrow
  obtain ⟨found, hfound, hsame⟩ := hlookup (oneRow row.bodyHex) [.other 0] [] [] (by simp [BodyColumn.numRows]) rfl
  refine ⟨rows, row, found, hrows, hrow, hfound, (hsound _ _ _ hfound).1, ?_⟩
  obtain rfl := List.mem_singleton.1 hlazy
  cases hget
  exact hsame.value.symm

end Constantinople
