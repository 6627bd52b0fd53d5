/-
The explorer's proofs of transactions and accounts, as in `explorer/src/qmdb.ts` and `explorer/src/proofMath.ts`.
A finalized block header is taken from a certificate, a location from the SQL index, and what stands there is
proved against a root of the header. The clients of the services are parameters; each request is answered
with a value or throws. A digest is text without signs or blanks.
-/
import Constantinople.Explorer.Activity

namespace Constantinople.Explorer

open Constantinople

/-! ## Services -/

/-- A certificate that the client has verified. -/
structure VerifiedSimplexCertificate where
  view : Nat
  payload : Bytes
  header : Bytes

structure SimplexClient where
  getFinalizationByHeight : (height : Nat) → Except Thrown (Option VerifiedSimplexCertificate)
  latestFinalization : Except Thrown (Option VerifiedSimplexCertificate)

/-- A proof that verifies has a size; one of an update also has the value of the key. -/
structure QmdbOperationLogClient where
  getFixedKeylessAppend : (tip : Nat) → (location : Int) → (expectedRoot expectedValue : Bytes) → Except Thrown Nat
  getFixedUnorderedUpdate : (tip : Nat) → (location : Int) → (expectedRoot expectedKey : Bytes) → (valueSize : Nat) →
    Except Thrown (Bytes × Nat)

inductive CellValue
  | bigint (value : Int)
  | bytes (value : Bytes)
  | text (value : List Char)
  | other

/-- `values` of a decoded row: undefined for a column that is not there. -/
abbrev DecodedRow := String → Option CellValue

/-- `SELECT columns FROM table WHERE key = value LIMIT 1`. -/
structure LookupQuery where
  columns : List String
  table : String
  key : String
  value : Bytes

structure Services where
  /-- The client of a store, with the verifier for some verification material. -/
  simplex : (storeUrl : List Char) → (verificationMaterial : Bytes) → Except Thrown SimplexClient
  sql : (sqlUrl : List Char) → LookupQuery → Except Thrown (List DecodedRow)
  operationLog : (serviceUrl : List Char) → QmdbOperationLogClient
  sha256 : Sha256
  /-- `error.message`. -/
  message : Thrown → String

variable (services : Services)

/-- `replace(/\/+$/, '')`. -/
def trimTrailingSlash (value : List Char) : List Char := (value.reverse.dropWhile (· = '/')).reverse

def shortHex (value : List Char) : String :=
  if value.length ≤ 18 then String.ofList value
  else String.ofList (value.take 10) ++ "..." ++ String.ofList (value.drop (value.length - 8))

def expectBigint (value : Option CellValue) (column : String) : Except Thrown Int :=
  match value with
  | some (.bigint value) => .ok value
  | _ => .error (.error ("SQL column " ++ column ++ " must be UInt64"))

def expectHexBytes (value : Option CellValue) (column : String) : Except Thrown Bytes :=
  match value with
  | some (.text value) =>
    let normalized := (dropHexMarker (trim value)).map Char.toLower
    if ¬normalized.all isLowerHex ∨ normalized.length % 2 ≠ 0 then
      .error (.error ("SQL column " ++ column ++ " must be even-length hex"))
    else .ok (fromHex normalized)
  | _ => .error (.error ("SQL column " ++ column ++ " must be Utf8 hex"))

/-! ## Finalized headers -/

structure FinalizedTransactionTarget where
  height : Nat
  view : Nat
  blockDigest : Bytes
  stateRoot : Bytes
  stateStart : Nat
  stateTip : Nat
  transactionsRoot : Bytes
  transactionsStart : Nat
  transactionsTip : Nat
deriving DecidableEq, Repr

/-- The header in a certificate, whose digest the certified commitment starts with. -/
def finalizedTargetFromCertificate (certificate : VerifiedSimplexCertificate) :
    Except Thrown FinalizedTransactionTarget := do
  let certified := certificate.header
  if certificate.payload.length ≠ commitmentBytes then
    .error (.error ("certified commitment must be " ++ toString commitmentBytes ++ " bytes"))
  else if certified.length ≤ commitmentBytes then
    .error (.error "finalized artifact is missing certified header bytes")
  else if certified.take commitmentBytes ≠ certificate.payload then
    .error (.error "finalized artifact commitment does not match certificate payload")
  else
    let header ← decodeBlockHeader certified commitmentBytes
    let headerDigest := (services.sha256 ((certified.take header.endOffset).drop commitmentBytes)).1
    let blockDigest := certificate.payload.take digestBytes
    if headerDigest ≠ blockDigest then
      .error (.error "certified commitment does not match finalized block header digest")
    else
      return {
        height := header.height
        view := certificate.view
        blockDigest
        stateRoot := header.stateRoot
        stateStart := header.stateStart
        stateTip := header.stateTip
        transactionsRoot := header.transactionsRoot
        transactionsStart := header.transactionsStart
        transactionsTip := header.transactionsTip }

def verifiedSimplexClient (storeUrl simplexVerificationMaterial : List Char) : Except Thrown SimplexClient :=
  if (trim simplexVerificationMaterial).length = 0 then
    .error (.error "Simplex verification material is not configured")
  else services.simplex (trimTrailingSlash storeUrl) (fromHex simplexVerificationMaterial)

def fetchFinalizedTransactionTarget (storeUrl simplexVerificationMaterial : List Char) (height : Nat) :
    Except Thrown FinalizedTransactionTarget := do
  let simplex ← verifiedSimplexClient services storeUrl simplexVerificationMaterial
  let certificate ← simplex.getFinalizationByHeight height
  match certificate with
  | none => .error (.error ("finalization missing at height " ++ toString height))
  | some certificate =>
    let target ← finalizedTargetFromCertificate services certificate
    if target.height ≠ height then
      .error (.error ("finalized certificate height " ++ toString target.height ++
        " does not match requested height " ++ toString height))
    else return target

def fetchLatestFinalizedTarget (storeUrl simplexVerificationMaterial : List Char) :
    Except Thrown FinalizedTransactionTarget := do
  let simplex ← verifiedSimplexClient services storeUrl simplexVerificationMaterial
  let certificate ← simplex.latestFinalization
  match certificate with
  | none => .error (.error "latest finalization missing")
  | some certificate => finalizedTargetFromCertificate services certificate

/-! ## Transactions -/

def transactionProofTip (transactionsRangeEnd : Nat) : Except Thrown Nat :=
  if transactionsRangeEnd = 0 then .error (.error "transaction operation range is empty")
  else .ok (transactionsRangeEnd - 1)

def assertTransactionLocationBeforeTip (location : Int) (transactionsRangeEnd : Nat) : Except Thrown Unit :=
  if (transactionsRangeEnd : Int) ≤ location then
    .error (.error ("transaction location " ++ toString location ++ " is outside finalized transaction range"))
  else .ok ()

structure VerifiedTransactionProof where
  location : Int
  tip : Nat
  height : Nat
  view : Nat
  proofSizeBytes : Nat
deriving DecidableEq, Repr

/-- The location of a digest in the history, as the index has it. -/
def fetchTransactionProofMetadata (sqlUrl digest : List Char) (target : FinalizedTransactionTarget) :
    Except Thrown Int := do
  let bytes := fromHex digest
  assertByteLength bytes digestBytes "transaction digest"
  let rows ← services.sql (trimTrailingSlash sqlUrl) ⟨["qmdb_location"], "tx_meta", "tx_digest", bytes⟩
  match rows.head? with
  | none =>
    .error (.error ("tx digest " ++ shortHex digest ++ " missing at height " ++ toString target.height))
  | some row => expectBigint (row "qmdb_location") "qmdb_location"

def transactionBodyBytes : Nat := publicKeyBytes + accountKeyBytes + 8 + 8

/-- The location of a digest, from a row whose body has the digest. -/
def fetchVerifiedSqlTransactionMetadata (sqlUrl : List Char) (digest : Bytes) : Except Thrown Int := do
  let rows ← services.sql (trimTrailingSlash sqlUrl) ⟨["qmdb_location", "body_hex"], "tx_meta", "tx_digest", digest⟩
  match rows.head? with
  | none =>
    .error (.error ("tx digest " ++ shortHex (toHex digest).toList ++ " missing from raw transaction index"))
  | some row =>
    let location ← expectBigint (row "qmdb_location") "qmdb_location"
    let signedTransaction ← expectHexBytes (row "body_hex") "body_hex"
    if signedTransaction.length < transactionBodyBytes then .error (.error "SQL transaction body is truncated")
    else if (services.sha256 (signedTransaction.take transactionBodyBytes)).1 ≠ digest then
      .error (.error "SQL transaction body does not match transaction digest")
    else return location

def transactionProofErrorDetail (error : Thrown) (target : FinalizedTransactionTarget) (location : Int) :
    Except Thrown String := do
  let tip ← transactionProofTip target.transactionsTip
  return String.intercalate " · " [services.message error, "height " ++ toString target.height,
    "location " ++ toString location, "tip " ++ toString tip, "proof start " ++ toString location, "ops 1"]

/-- The client of the transaction history. -/
def transactionsLog (qmdbUrl : List Char) : QmdbOperationLogClient :=
  services.operationLog (trimTrailingSlash qmdbUrl ++ "/transactions".toList)

/-- The client of the account state. -/
def stateLog (qmdbUrl : List Char) : QmdbOperationLogClient :=
  services.operationLog (trimTrailingSlash qmdbUrl ++ "/state".toList)

def fetchAndVerifyTransactionProof (qmdbUrl storeUrl sqlUrl simplexVerificationMaterial digest : List Char)
    (height : Nat) : Except Thrown VerifiedTransactionProof := do
  let target ← fetchFinalizedTransactionTarget services storeUrl simplexVerificationMaterial height
  let location ← fetchTransactionProofMetadata services sqlUrl digest target
  if location < target.transactionsStart ∨ (target.transactionsTip : Int) ≤ location then
    .error (.error ("transaction location " ++ toString location ++ " is outside finalized block range"))
  else
    let tip ← transactionProofTip target.transactionsTip
    match (transactionsLog services qmdbUrl).getFixedKeylessAppend tip location target.transactionsRoot
        (fromHex digest) with
    | .error error =>
      let detail ← transactionProofErrorDetail services error target location
      .error (.error detail)
    | .ok proofSizeBytes => return ⟨location, tip, target.height, target.view, proofSizeBytes⟩

/-- The proof of a row of an account page, in the history up to a later block. -/
def fetchAndVerifyTransactionRowProof (qmdbUrl sqlUrl : List Char) (row : AccountTransactionRow)
    (target : FinalizedTransactionTarget) : Except Thrown VerifiedTransactionProof := do
  let bytes := fromHex row.digest.toList
  assertByteLength bytes digestBytes "transaction digest"
  let location ← fetchVerifiedSqlTransactionMetadata services sqlUrl bytes
  assertTransactionLocationBeforeTip location target.transactionsTip
  let tip ← transactionProofTip target.transactionsTip
  let proofSizeBytes ←
    (transactionsLog services qmdbUrl).getFixedKeylessAppend tip location target.transactionsRoot bytes
  return ⟨location, tip, target.height, target.view, proofSizeBytes⟩

/-! ## Accounts -/

structure AccountProofRow where
  balance : Int
  nonce : Int
  nonceBitmap : Int
  location : Int

structure VerifiedAccountProof where
  balance : Nat
  nonce : Nat
  nonceBitmap : Nat
  location : Int
  tip : Nat
  proofSizeBytes : Nat
deriving DecidableEq, Repr

def fetchAccountProofRow (sqlUrl : List Char) (account : Bytes) : Except Thrown AccountProofRow := do
  let rows ← services.sql (trimTrailingSlash sqlUrl)
    ⟨["balance", "nonce_base", "nonce_bitmap", "qmdb_location"], "account_meta", "account", account⟩
  match rows.head? with
  | none => .error (.error ("account " ++ shortHex (toHex account).toList ++ " is not indexed"))
  | some row =>
    let balance ← expectBigint (row "balance") "balance"
    let nonce ← expectBigint (row "nonce_base") "nonce_base"
    let nonceBitmap ← expectBigint (row "nonce_bitmap") "nonce_bitmap"
    let location ← expectBigint (row "qmdb_location") "qmdb_location"
    return ⟨balance, nonce, nonceBitmap, location⟩

def accountValueBytes : Nat := 24

/-- The balance, and the base and the bitmap of the nonce. -/
def decodeAccountValue (value : Bytes) : Except Thrown (Nat × Nat × Nat) := do
  if value.length ≠ accountValueBytes then .error (.error "malformed account proof value")
  else
    let balance ← readU64Be value 0
    let nonce ← readU64Be value 8
    let nonceBitmap ← readU64Be value 16
    return (balance, nonce, nonceBitmap)

def fetchAndVerifyAccountProof (qmdbUrl sqlUrl : List Char) (account : String) (target : FinalizedTransactionTarget) :
    Except Thrown VerifiedAccountProof := do
  let accountBytes ← parseAccountBytes account
  let row ← fetchAccountProofRow services sqlUrl accountBytes
  let stateEnd := target.stateTip
  if row.location < target.stateStart ∨ (stateEnd : Int) ≤ row.location then
    .error (.error ("account location " ++ toString row.location ++ " is outside finalized state range"))
  else
    let tip ← transactionProofTip stateEnd
    let (value, proofSizeBytes) ← (stateLog services qmdbUrl).getFixedUnorderedUpdate tip row.location
      target.stateRoot accountBytes accountValueBytes
    let (balance, nonce, nonceBitmap) ← decodeAccountValue value
    if (balance : Int) ≠ row.balance ∨ (nonce : Int) ≠ row.nonce ∨ (nonceBitmap : Int) ≠ row.nonceBitmap then
      .error (.error "account proof value does not match account index row")
    else return ⟨balance, nonce, nonceBitmap, row.location, tip, proofSizeBytes⟩

end Constantinople.Explorer
