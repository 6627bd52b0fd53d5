/-
The submitted transactions of the explorer's wallet, as in `explorer/src/historyKey.ts`, `explorer/src/proofRetry.ts`
and `explorer/src/App.tsx`. Each transaction has a status from the mempool, a mark for the certificate of its block
and one for its proof. The list is kept in the browser's storage, as JSON under a key of the deployment and the
account; a number is a whole double.
-/
import Constantinople.Explorer.Feed
import Constantinople.Lib.Percent

namespace Constantinople.Explorer.App

open Constantinople

/-! ## The key -/

structure HistoryScope where
  indexerUrl : List Char
  qmdbUrl : List Char
  storeUrl : List Char
  mempoolUrl : List Char
  simplexVerificationMaterial : List Char
deriving DecidableEq

/-- The bytes that `encodeURIComponent` leaves. -/
def isUnescaped (b : UInt8) : Bool :=
  (65 ≤ b ∧ b ≤ 90) ∨ (97 ≤ b ∧ b ≤ 122) ∨ (48 ≤ b ∧ b ≤ 57) ∨ b ∈ [45, 95, 46, 33, 126, 42, 39, 40, 41]

def encodeURIComponent (value : List Char) : List Char :=
  Percent.escape isUnescaped (value.flatMap String.utf8EncodeChar)

/-- A value is ASCII text. -/
def normalizeScopeValue (value : List Char) : List Char :=
  encodeURIComponent ((trimTrailingSlash (trim value)).map Char.toLower)

def historyKeyPrefix : List Char := "constantinople.submitted-transactions.v3".toList

def submittedTransactionHistoryKey (scope : HistoryScope) (walletAccountKeyHex : Option (List Char)) :
    Option (List Char) :=
  walletAccountKeyHex.map fun walletAccountKeyHex => [':'].intercalate [
    historyKeyPrefix,
    normalizeScopeValue scope.indexerUrl,
    normalizeScopeValue scope.qmdbUrl,
    normalizeScopeValue scope.storeUrl,
    normalizeScopeValue scope.mempoolUrl,
    normalizeScopeValue scope.simplexVerificationMaterial,
    normalizeScopeValue walletAccountKeyHex]

/-! ## Transactions -/

inductive SubmittedStatus
  | pending
  | finalized
  | partiallyFinalized
  | dropped
  | error
  /-- Any other text in the storage. -/
  | other (text : List Char)
deriving DecidableEq

inductive BlockCertificateState
  | waiting (detail : List Char)
  | fetching (detail : List Char)
  | verified (detail height view : List Char)
  | error (detail : List Char)
deriving DecidableEq

inductive TransactionProofState
  | waiting (detail : List Char)
  | fetching (detail : List Char)
  | verified (detail location tip : List Char) (proofSizeBytes : Int)
  | error (detail : List Char)
deriving DecidableEq

structure SubmittedTransaction where
  sender : List Char
  digest : List Char
  toKey : List Char
  value : List Char
  nonce : List Char
  submittedAt : Int
  finalizedInMs : Option Int
  status : SubmittedStatus
  detail : List Char
  finalizedHeight : Option Int
  certificate : BlockCertificateState
  proof : TransactionProofState
deriving DecidableEq

/-- What the mempool answers. -/
inductive TxStatus
  | finalized (height : Int)
  | partiallyFinalized (height : Int) (included filtered : List (List Char))
  | dropped
deriving DecidableEq

def waitingFinalizationCertificate : BlockCertificateState := .waiting "waiting for finalization".toList

def waitingBlockCertificate : BlockCertificateState := .waiting "waiting for block certificate".toList

/-- The transaction that `submitTransfer` adds once it is signed. -/
def pendingTransaction (sender digest toKey value nonce : List Char) (now : Int) : SubmittedTransaction where
  sender := sender
  digest := digest
  toKey := toKey
  value := value
  nonce := nonce
  submittedAt := now
  finalizedInMs := none
  status := .pending
  detail := "submitted to mempool".toList
  finalizedHeight := none
  certificate := .waiting "waiting for finalization".toList
  proof := .waiting "waiting for finalization".toList

def prependTransaction (transaction : SubmittedTransaction) (current : List SubmittedTransaction) :
    List SubmittedTransaction :=
  (transaction :: current.filter fun item => item.digest ≠ transaction.digest).take 100

def nextBlockCertificateState : TxStatus → BlockCertificateState
  | .dropped => .waiting "not finalized".toList
  | _ => .waiting "waiting for block certificate".toList

def nextProofState (status : TxStatus) (digest : List Char) : TransactionProofState :=
  match status with
  | .dropped => .waiting "not finalized".toList
  | .partiallyFinalized _ _ filtered =>
    if digest ∈ filtered then .waiting "not included".toList else .waiting "waiting for QMDB proof".toList
  | .finalized _ => .waiting "waiting for QMDB proof".toList

/-- `status.status`. -/
def TxStatus.status : TxStatus → SubmittedStatus
  | .finalized _ => .finalized
  | .partiallyFinalized _ _ _ => .partiallyFinalized
  | .dropped => .dropped

/-- `status.height`, of a status that has one. -/
def TxStatus.height? : TxStatus → Option Int
  | .finalized height => some height
  | .partiallyFinalized height _ _ => some height
  | .dropped => none

def shortHex (value : List Char) : List Char :=
  if value.length ≤ 18 then value else value.take 10 ++ ['…'] ++ value.drop (value.length - 8)

def text (value : Int) : List Char := (toString value).toList

def formatTxStatus (status : TxStatus) (digest : List Char) : List Char :=
  match status with
  | .finalized height => "finalized at ".toList ++ text height
  | .partiallyFinalized height _ filtered =>
    if digest ∈ filtered then
      "rejected at ".toList ++ text height ++ ": filtered ".toList ++ shortHex digest
    else
      "partial at ".toList ++ text height ++ ": filtered ".toList ++ ", ".toList.intercalate (filtered.map shortHex)
  | .dropped => "dropped".toList

def updateTransactionStatus (digest : List Char) (status : TxStatus) (detail : List Char) (now : Int)
    (current : List SubmittedTransaction) : List SubmittedTransaction :=
  current.map fun tx =>
    if tx.digest = digest then { tx with
      status := status.status
      detail
      finalizedInMs := some (now - tx.submittedAt)
      finalizedHeight := status.height?.or tx.finalizedHeight
      certificate := nextBlockCertificateState status
      proof := nextProofState status digest }
    else tx

def updateTransactionProof (digest : List Char) (proof : TransactionProofState) (current : List SubmittedTransaction) :
    List SubmittedTransaction :=
  current.map fun tx => if tx.digest = digest then { tx with proof } else tx

/-- The same status with the same texts. -/
def sameBlockCertificate (left right : BlockCertificateState) : Bool := left = right

/-- A transaction of the height that does not have the certificate yet. -/
def lacksCertificate (height : Int) (certificate : BlockCertificateState) (tx : SubmittedTransaction) : Bool :=
  tx.finalizedHeight = some height ∧ ¬sameBlockCertificate tx.certificate certificate

/-- The list, and whether it is a new one. -/
def updateBlockCertificateByHeight (height : Int) (certificate : BlockCertificateState)
    (current : List SubmittedTransaction) : List SubmittedTransaction × Bool :=
  if current.any (lacksCertificate height certificate) then
    (current.map fun tx => if lacksCertificate height certificate tx then { tx with certificate } else tx, true)
  else (current, false)

def verifiedProofState (proof : VerifiedTransactionProof) : TransactionProofState :=
  .verified ("verified at height ".toList ++ text proof.height) (text proof.location) (text proof.tip)
    proof.proofSizeBytes

def verifiedBlockCertificateState (height view : Nat) : BlockCertificateState :=
  .verified ("verified at height ".toList ++ text height) (text height) (text view)

/-! ## Proofs to fetch -/

/-- The end of a line, which a dot does not match. -/
def isLineEnd (c : Char) : Bool := c.toNat ∈ [0x0a, 0x0d, 0x2028, 0x2029]

/-- A test for one word and another after it in one line, in any case. -/
def mentionsBoth (first second : String) (message : List Char) : Bool :=
  (message.map Char.toLower).tails.any fun rest =>
    first.toList.isPrefixOf rest &&
      decide (second.toList <:+: (rest.drop first.length).takeWhile fun c => !isLineEnd c)

def isRetryableProofError (detail : List Char) : Bool :=
  mentions ["tx_meta missing", "finalization missing", "qmdb transaction proof response missing",
    "failed to decode simplex identity", "failed to decode simplex verification material",
    "simplex verification material contains trailing bytes", "out_of_range", "unavailable", "fetch"] detail ||
  mentionsBoth "tx digest " " missing at height" detail

/-- A proof that waits, or failed in a way that may pass. -/
def TransactionProofState.isDue : TransactionProofState → Bool
  | .waiting _ => true
  | .error detail => isRetryableProofError detail
  | _ => false

def shouldFetchTransactionProof (tx : SubmittedTransaction) (signedInSender : Option (List Char)) : Bool :=
  signedInSender = some tx.sender ∧ tx.finalizedHeight.isSome ∧
    (tx.status = .finalized ∨ (tx.status = .partiallyFinalized ∧ ¬"rejected".toList.isPrefixOf tx.detail)) ∧
    tx.proof.isDue

def TransactionProofState.isFetching : TransactionProofState → Bool
  | .fetching _ => true
  | _ => false

def hasFetchingProof (transactions : List SubmittedTransaction) (signedInSender : Option (List Char)) : Bool :=
  transactions.any fun tx => signedInSender = some tx.sender ∧ tx.proof.isFetching

/-! ## The storage -/

/-- A value that `JSON.parse` reads back from what `JSON.stringify` writes. -/
inductive Json
  | null
  | number (value : Int)
  | string (value : List Char)
  | array (items : List Json)
  | object (fields : List (String × Json))

def Json.field : Json → String → Option Json
  | .object fields, name => fields.lookup name
  | _, _ => none

def Json.string? : Option Json → Option (List Char)
  | some (.string value) => some value
  | _ => none

def Json.number? : Option Json → Option Int
  | some (.number value) => some value
  | _ => none

def Json.ofNumber? : Option Int → Json
  | none => .null
  | some value => .number value

def statusText : SubmittedStatus → List Char
  | .pending => "pending".toList
  | .finalized => "finalized".toList
  | .partiallyFinalized => "partially_finalized".toList
  | .dropped => "dropped".toList
  | .error => "error".toList
  | .other text => text

def statusOfText (text : List Char) : SubmittedStatus :=
  if text = "pending".toList then .pending
  else if text = "finalized".toList then .finalized
  else if text = "partially_finalized".toList then .partiallyFinalized
  else if text = "dropped".toList then .dropped
  else if text = "error".toList then .error
  else .other text

def certificateJson : BlockCertificateState → Json
  | .waiting detail => .object [("status", .string "waiting".toList), ("detail", .string detail)]
  | .fetching detail => .object [("status", .string "fetching".toList), ("detail", .string detail)]
  | .verified detail height view => .object [("status", .string "verified".toList), ("detail", .string detail),
      ("height", .string height), ("view", .string view)]
  | .error detail => .object [("status", .string "error".toList), ("detail", .string detail)]

def proofJson : TransactionProofState → Json
  | .waiting detail => .object [("status", .string "waiting".toList), ("detail", .string detail)]
  | .fetching detail => .object [("status", .string "fetching".toList), ("detail", .string detail)]
  | .verified detail location tip proofSizeBytes => .object [("status", .string "verified".toList),
      ("detail", .string detail), ("location", .string location), ("tip", .string tip),
      ("proofSizeBytes", .number proofSizeBytes)]
  | .error detail => .object [("status", .string "error".toList), ("detail", .string detail)]

def transactionJson (tx : SubmittedTransaction) : Json :=
  .object [("sender", .string tx.sender), ("digest", .string tx.digest), ("to", .string tx.toKey),
    ("value", .string tx.value), ("nonce", .string tx.nonce), ("submittedAt", .number tx.submittedAt),
    ("finalizedInMs", .ofNumber? tx.finalizedInMs), ("status", .string (statusText tx.status)),
    ("detail", .string tx.detail), ("finalizedHeight", .ofNumber? tx.finalizedHeight),
    ("certificate", certificateJson tx.certificate), ("proof", proofJson tx.proof)]

/-- What `writeHistory` stores. -/
def historyJson (history : List SubmittedTransaction) : Json := .array (history.map transactionJson)

def isAccountKeyHex (value : List Char) : Bool := value.length = 64 ∧ value.all isLowerHex

def defaultBlockCertificate (finalizedHeight : Option Int) : BlockCertificateState :=
  if finalizedHeight = none then waitingFinalizationCertificate else waitingBlockCertificate

def normalizeBlockCertificate (value : Option Json) (finalizedHeight : Option Int) : BlockCertificateState :=
  match value with
  | none => defaultBlockCertificate finalizedHeight
  | some certificate =>
    let status := Json.string? (certificate.field "status")
    match Json.string? (certificate.field "detail") with
    | none => defaultBlockCertificate finalizedHeight
    | some detail =>
      match Json.string? (certificate.field "height"), Json.string? (certificate.field "view") with
      | some height, some view =>
        if status = some "verified".toList then .verified detail height view
        else if status = some "waiting".toList then .waiting detail
        else if status = some "error".toList then .error detail
        else defaultBlockCertificate finalizedHeight
      | _, _ =>
        if status = some "waiting".toList then .waiting detail
        else if status = some "error".toList then .error detail
        else defaultBlockCertificate finalizedHeight

def normalizeTransactionProof (value : Option Json) : TransactionProofState :=
  match value with
  | none => .waiting "waiting for finalization".toList
  | some proof =>
    let status := Json.string? (proof.field "status")
    match Json.string? (proof.field "detail") with
    | some detail =>
      if status = some "verified".toList then
        .verified detail ((Json.string? (proof.field "location")).getD []) ((Json.string? (proof.field "tip")).getD [])
          ((Json.number? (proof.field "proofSizeBytes")).getD 0)
      else if status = some "waiting".toList then .waiting detail
      else if status = some "error".toList then .waiting "retrying QMDB proof".toList
      else .waiting "waiting for finalization".toList
    | none =>
      if status = some "error".toList then .waiting "retrying QMDB proof".toList
      else .waiting "waiting for finalization".toList

def normalizeSubmittedTransaction (value : Json) : Option SubmittedTransaction := do
  let sender ← Json.string? (value.field "sender")
  let digest ← Json.string? (value.field "digest")
  let toKey ← Json.string? (value.field "to")
  let amount ← Json.string? (value.field "value")
  let nonce ← Json.string? (value.field "nonce")
  let submittedAt ← Json.number? (value.field "submittedAt")
  let status ← Json.string? (value.field "status")
  let detail ← Json.string? (value.field "detail")
  if ¬isAccountKeyHex sender ∨ ¬isAccountKeyHex toKey then none
  else
    let finalizedInMs := Json.number? (value.field "finalizedInMs")
    let finalizedHeight := Json.number? (value.field "finalizedHeight")
    return {
      digest, sender, toKey
      value := amount
      nonce, submittedAt, finalizedInMs
      status := statusOfText status
      detail, finalizedHeight
      certificate := normalizeBlockCertificate (value.field "certificate") finalizedHeight
      proof := normalizeTransactionProof (value.field "proof") }

/-- The transactions in what is stored under a key. -/
def readHistory (raw : Option Json) : List SubmittedTransaction :=
  match raw with
  | some (.array items) => items.filterMap normalizeSubmittedTransaction
  | _ => []

/-! ## Keys tell deployments and accounts apart -/

theorem utf8_injective : Function.Injective fun value : List Char => value.flatMap String.utf8EncodeChar := by
  intro value value' h
  have hencode : value.utf8Encode = value'.utf8Encode := by
    unfold List.utf8Encode
    exact congrArg List.toByteArray h
  have hdecode := congrArg ByteArray.utf8Decode? hencode
  rw [List.utf8Decode?_utf8Encode, List.utf8Decode?_utf8Encode] at hdecode
  simpa using hdecode

theorem encodeURIComponent_injective : Function.Injective encodeURIComponent :=
  (Percent.escape_injective (by decide)).comp utf8_injective

theorem colon_not_mem (value : List Char) : ':' ∉ normalizeScopeValue value :=
  Percent.not_mem_escape isUnescaped 58 (by decide) (by decide) (by decide) _

/-- What `normalizeScopeValue` encodes. -/
def normalText (value : List Char) : List Char := (trimTrailingSlash (trim value)).map Char.toLower

/-- A key names the verification material and the account, up to case, outer blanks and slashes at the end. -/
theorem historyKey_inj {scope scope' : HistoryScope} {account account' : List Char} {key : List Char}
    (h : submittedTransactionHistoryKey scope (some account) = some key)
    (h' : submittedTransactionHistoryKey scope' (some account') = some key) :
    normalText scope.simplexVerificationMaterial = normalText scope'.simplexVerificationMaterial ∧
      normalText account = normalText account' := by
  have hcolon : ':' ∉ historyKeyPrefix := by decide
  have heq := Percent.intercalate_inj ?_ ?_ (by simp) (by simp) (Option.some.inj (h.trans h'.symm))
  · simp only [List.cons.injEq, and_true, true_and] at heq
    obtain ⟨-, -, -, -, hmaterial, haccount⟩ := heq
    exact ⟨encodeURIComponent_injective hmaterial, encodeURIComponent_injective haccount⟩
  · simp [hcolon, colon_not_mem]
  · simp [hcolon, colon_not_mem]

/-! ## Reading back -/

/-- A transaction as it comes back: a proof that was fetched is to be fetched again, and so is one that failed. -/
def SubmittedTransaction.resumed (tx : SubmittedTransaction) : SubmittedTransaction :=
  { tx with
    certificate := match tx.certificate with
      | .fetching _ => defaultBlockCertificate tx.finalizedHeight
      | certificate => certificate
    proof := match tx.proof with
      | .fetching _ => .waiting "waiting for finalization".toList
      | .error _ => .waiting "retrying QMDB proof".toList
      | proof => proof }

/-- A transaction as the page makes it. -/
structure SubmittedTransaction.Valid (tx : SubmittedTransaction) : Prop where
  sender : isAccountKeyHex tx.sender = true
  toKey : isAccountKeyHex tx.toKey = true
  status : ∀ text, tx.status ≠ .other text

theorem statusOfText_statusText {status : SubmittedStatus} (h : ∀ text, status ≠ .other text) :
    statusOfText (statusText status) = status := by
  cases status with
  | other text => exact absurd rfl (h text)
  | pending => decide
  | finalized => decide
  | partiallyFinalized => decide
  | dropped => decide
  | error => decide

@[simp] theorem Json.string?_string (value : List Char) : Json.string? (some (.string value)) = some value := rfl

@[simp] theorem Json.number?_number (value : Int) : Json.number? (some (.number value)) = some value := rfl

@[simp] theorem Json.number?_ofNumber? (value : Option Int) : Json.number? (some (.ofNumber? value)) = value := by
  cases value with
  | none => rfl
  | some value => rfl

theorem normalizeBlockCertificate_json (certificate : BlockCertificateState) (finalizedHeight : Option Int) :
    normalizeBlockCertificate (some (certificateJson certificate)) finalizedHeight = match certificate with
      | .fetching _ => defaultBlockCertificate finalizedHeight
      | certificate => certificate := by
  cases certificate <;> simp [normalizeBlockCertificate, certificateJson, Json.field, Json.string?, List.lookup]

theorem normalizeTransactionProof_json (proof : TransactionProofState) :
    normalizeTransactionProof (some (proofJson proof)) = match proof with
      | .fetching _ => .waiting "waiting for finalization".toList
      | .error _ => .waiting "retrying QMDB proof".toList
      | proof => proof := by
  cases proof <;> simp [normalizeTransactionProof, proofJson, Json.field, Json.string?, Json.number?, List.lookup]

theorem normalizeSubmittedTransaction_json {tx : SubmittedTransaction} (h : tx.Valid) :
    normalizeSubmittedTransaction (transactionJson tx) = some tx.resumed := by
  unfold normalizeSubmittedTransaction transactionJson SubmittedTransaction.resumed
  simp [Json.field, List.lookup, h.sender, h.toKey, statusOfText_statusText h.status, normalizeBlockCertificate_json,
    normalizeTransactionProof_json]

/-- A history is read back as it was written. -/
theorem readHistory_json {history : List SubmittedTransaction} (h : ∀ tx ∈ history, tx.Valid) :
    readHistory (some (historyJson history)) = history.map SubmittedTransaction.resumed := by
  show (history.map transactionJson).filterMap normalizeSubmittedTransaction = _
  rw [List.filterMap_map, ← List.filterMap_eq_map]
  exact List.filterMap_congr fun tx htx => normalizeSubmittedTransaction_json (h tx htx)

end Constantinople.Explorer.App
