/-
The wallet's history over the life of a browser: pages are opened and closed, several at a time and all with the
storage of their origin, wallets change, submissions are answered and proofs arrive in any order. A render takes a
picture of the state, the effects of a render run later with this picture, and updates in between go to the state;
every update that makes a new list gives it a new number, since effects tell lists apart by identity.
-/
import Constantinople.Explorer.History
import Constantinople.Explorer.LightClient

namespace Constantinople.Explorer.App

open Constantinople Run

/-! ## Pages -/

/-- What the effects of a render see. -/
structure Rendered where
  signedInAccountKey : Option (List Char)
  loadedHistoryKey : Option (List Char)
  version : Nat
  history : List SubmittedTransaction

structure Page where
  scope : HistoryScope
  walletAccountKey : Option (List Char)
  loadedHistoryKey : Option (List Char)
  version : Nat
  history : List SubmittedTransaction
  /-- The last render. -/
  rendered : Option Rendered
  /-- The last render whose effects have run. -/
  settled : Option Rendered
  /-- The digests and heights of the proofs being fetched. -/
  fetches : List (List Char × Int)
  /-- The digests of the proofs to be tried again. -/
  timers : List (List Char)

/-- A page with the storage as it finds it. -/
structure View where
  storage : List Char → Option Json
  page : Page

def Page.new (scope : HistoryScope) : Page := ⟨scope, none, none, 0, [], none, none, [], []⟩

/-- `setHistory` with a new list. -/
def Page.setHistory (page : Page) (history : List SubmittedTransaction) : Page :=
  { page with history, version := page.version + 1 }

def Page.historyKey (page : Page) (render : Rendered) : Option (List Char) :=
  submittedTransactionHistoryKey page.scope render.signedInAccountKey

/-! ## Effects -/

/-- The effect that loads the history of another key. -/
def Page.loadHistory (page : Page) (storage : List Char → Option Json) (render : Rendered) : Page :=
  if page.settled.map page.historyKey = some (page.historyKey render) then page
  else
    { page.setHistory (match page.historyKey render with
        | none => []
        | some key => readHistory (storage key)) with
      loadedHistoryKey := page.historyKey render }

/-- The effect that stores a history under the key it was loaded for. -/
def Page.saveHistory (page : Page) (storage : List Char → Option Json) (render : Rendered) :
    List Char → Option Json :=
  if page.settled.map (fun settled => (page.historyKey settled, settled.loadedHistoryKey, settled.version)) =
      some (page.historyKey render, render.loadedHistoryKey, render.version) then storage
  else
    match page.historyKey render with
    | none => storage
    | some key =>
      if render.loadedHistoryKey ≠ some key then storage
      else Function.update storage key (some (historyJson render.history))

/-- The effect that fetches one proof. -/
def Page.fetchProof (page : Page) (render : Rendered) : Page :=
  if page.settled.map (fun settled => (settled.version, settled.signedInAccountKey)) =
      some (render.version, render.signedInAccountKey) then page
  else if hasFetchingProof render.history render.signedInAccountKey then page
  else
    match render.history.find? (shouldFetchTransactionProof · render.signedInAccountKey) with
    | none => page
    | some tx =>
      { page.setHistory
          (updateTransactionProof tx.digest (.fetching "fetching QMDB proof".toList) page.history) with
        fetches := (tx.digest, tx.finalizedHeight.getD 0) :: page.fetches }

/-- All effects of a render, in the order of the source. -/
def View.runEffects (view : View) (render : Rendered) : View :=
  { storage := view.page.saveHistory view.storage render
    page := { (view.page.loadHistory view.storage render).fetchProof render with settled := some render } }

/-! ## Answers -/

def Page.onSigned (page : Page) (tx : SubmittedTransaction) : Page :=
  page.setHistory (prependTransaction tx page.history)

def Page.onStatus (page : Page) (digest : List Char) (status : TxStatus) (now : Int) : Page :=
  page.setHistory (updateTransactionStatus digest status (formatTxStatus status digest) now page.history)

/-- `updateBlockCertificateByHeight(Number(height), verifiedBlockCertificateState(..), current)`. -/
def certifyHeight (height view : Nat) (current : List SubmittedTransaction) : List SubmittedTransaction × Bool :=
  updateBlockCertificateByHeight (Double.round height) (verifiedBlockCertificateState height view) current

/-- The callback for a verified finalization. -/
def Page.onFinalizationVerified (page : Page) (target : FinalizedTransactionTarget) : Page :=
  let updated := certifyHeight target.height target.view page.history
  if updated.2 then page.setHistory updated.1 else page

def Page.onProof (page : Page) (digest : List Char) (height : Int) (proof : VerifiedTransactionProof) : Page :=
  { page.setHistory
      (certifyHeight proof.height proof.view
        (updateTransactionProof digest (verifiedProofState proof) page.history)).1 with
    fetches := page.fetches.erase (digest, height) }

def Page.onProofError (page : Page) (digest : List Char) (height : Int) (detail : List Char) : Page :=
  if isRetryableProofError detail then
    { page.setHistory
        (updateTransactionProof digest (.fetching "waiting for indexer metadata".toList) page.history) with
      fetches := page.fetches.erase (digest, height)
      timers := digest :: page.timers }
  else
    { page.setHistory (updateTransactionProof digest (.error detail) page.history) with
      fetches := page.fetches.erase (digest, height) }

def Page.onRetryTimer (page : Page) (digest : List Char) : Page :=
  { page.setHistory (updateTransactionProof digest (.waiting "waiting for QMDB proof".toList) page.history) with
    timers := page.timers.erase digest }

/-- `clearSubmittedTransactionHistory`; the key is that of the page as it is rendered. -/
def View.clearHistory (view : View) (key : Option (List Char)) : View :=
  { storage := match key with
      | none => view.storage
      | some key => Function.update view.storage key none
    page := view.page.setHistory [] }

/-- A certificate leaves the proofs as they are. -/
theorem certifyHeight_proofs (height view : Nat) (history : List SubmittedTransaction) :
    (certifyHeight height view history).1.map (fun tx => (tx.digest, tx.proof)) =
      history.map fun tx => (tx.digest, tx.proof) := by
  unfold certifyHeight updateBlockCertificateByHeight
  split
  · rw [List.map_map]
    refine List.map_congr_left fun tx _ => ?_
    show ((if _ then _ else tx : SubmittedTransaction).digest, (if _ then _ else tx : SubmittedTransaction).proof) = _
    split
    · rfl
    · rfl
  · rfl

/-- A verified finalization makes a new list, or nothing lacks its certificate. -/
theorem Page.onFinalizationVerified_cases (page : Page) (target : FinalizedTransactionTarget) :
    page.onFinalizationVerified target = page.setHistory (certifyHeight target.height target.view page.history).1 ∨
      page.onFinalizationVerified target = page := by
  unfold Page.onFinalizationVerified
  dsimp only
  split
  · exact .inl rfl
  · exact .inr rfl

/-- A proof that failed is tried again by a timer, or shown with its error. -/
theorem Page.onProofError_cases (page : Page) (digest : List Char) (height : Int) (detail : List Char) :
    ∃ proof timers, page.onProofError digest height detail =
        { page.setHistory (updateTransactionProof digest proof page.history) with
          fetches := page.fetches.erase (digest, height), timers } ∧
      ((proof = .fetching "waiting for indexer metadata".toList ∧ timers = digest :: page.timers) ∨
        (proof = .error detail ∧ timers = page.timers)) := by
  unfold Page.onProofError
  split
  · exact ⟨_, _, rfl, .inl ⟨rfl, rfl⟩⟩
  · exact ⟨_, _, rfl, .inr ⟨rfl, rfl⟩⟩

/-! ## Runs -/

inductive SessionEvent
  | opened (scope : HistoryScope)
  | signedIn (account : Option (List Char))
  | rendered
  | effectsRan
  | signed (tx : SubmittedTransaction)
  | answered (digest : List Char) (status : TxStatus) (now : Int)
  | certified (target : FinalizedTransactionTarget)
  | proved (digest : List Char) (proof : VerifiedTransactionProof)
  | proofFailed (digest detail : List Char)
  | retried (digest : List Char)
  | cleared

/-- The steps of a page that meets the services of its deployment. -/
inductive SessionStep (Available : HistoryScope → Services → Prop) : View → SessionEvent → View → Prop
  | openPage {v : View} (scope : HistoryScope) :
    SessionStep Available v (.opened scope) { v with page := .new scope }
  | signIn {v : View} (account : Option (List Char)) :
    SessionStep Available v (.signedIn account) { v with page := { v.page with walletAccountKey := account } }
  | render {v : View} (flushed : v.page.rendered = v.page.settled) :
    SessionStep Available v .rendered { v with page := { v.page with
      rendered := some ⟨v.page.walletAccountKey, v.page.loadedHistoryKey, v.page.version, v.page.history⟩ } }
  | effects {v : View} {render : Rendered} (shown : v.page.rendered = some render) :
    SessionStep Available v .effectsRan (v.runEffects render)
  | sign {v : View} {sender toKey : List Char} (hsender : isAccountKeyHex sender) (htoKey : isAccountKeyHex toKey)
      (digest value nonce : List Char) (now : Int) :
    SessionStep Available v (.signed (pendingTransaction sender digest toKey value nonce now))
      { v with page := v.page.onSigned (pendingTransaction sender digest toKey value nonce now) }
  | answer {v : View} (digest : List Char) (status : TxStatus) (now : Int) :
    SessionStep Available v (.answered digest status now) { v with page := v.page.onStatus digest status now }
  | certify {v : View} {services : Services} {digest : List Char} {height : Nat} {target : FinalizedTransactionTarget}
      (available : Available v.page.scope services) (running : (digest, (height : Int)) ∈ v.page.fetches)
      (fetched : fetchFinalizedTransactionTarget services v.page.scope.storeUrl
        v.page.scope.simplexVerificationMaterial height = .ok target) :
    SessionStep Available v (.certified target) { v with page := v.page.onFinalizationVerified target }
  | prove {v : View} {services : Services} {digest : List Char} {height : Nat} {proof : VerifiedTransactionProof}
      (available : Available v.page.scope services) (running : (digest, (height : Int)) ∈ v.page.fetches)
      (fetched : fetchAndVerifyTransactionProof services v.page.scope.qmdbUrl v.page.scope.storeUrl
        v.page.scope.indexerUrl v.page.scope.simplexVerificationMaterial digest height = .ok proof) :
    SessionStep Available v (.proved digest proof) { v with page := v.page.onProof digest height proof }
  | failProof {v : View} {digest : List Char} {height : Int} (detail : List Char)
      (running : (digest, height) ∈ v.page.fetches) :
    SessionStep Available v (.proofFailed digest detail) { v with page := v.page.onProofError digest height detail }
  | retry {v : View} {digest : List Char} (running : digest ∈ v.page.timers) :
    SessionStep Available v (.retried digest) { v with page := v.page.onRetryTimer digest }
  | clear {v : View} {render : Rendered} (shown : v.page.rendered = some render) :
    SessionStep Available v .cleared (v.clearHistory (v.page.historyKey render))

/-- The storage of an origin and its pages, by number. A page that is closed takes no more steps, until one is opened
under its number. -/
structure Browser where
  storage : List Char → Option Json
  pages : Nat → Page

/-- A browser in which nothing is stored. -/
def Browser.new (scope : HistoryScope) : Browser := ⟨fun _ => none, fun _ => .new scope⟩

def Browser.view (b : Browser) (tab : Nat) : View := ⟨b.storage, b.pages tab⟩

def Browser.put (b : Browser) (tab : Nat) (v : View) : Browser := ⟨v.storage, Function.update b.pages tab v.page⟩

/-- Each step is one of a page, with the storage that all share. -/
inductive BrowserStep (Available : HistoryScope → Services → Prop) : Browser → Nat × SessionEvent → Browser → Prop
  | page {b : Browser} {tab : Nat} {event : SessionEvent} {v : View} (step : SessionStep Available (b.view tab) event v) :
    BrowserStep Available b (tab, event) (b.put tab v)

section Pages

variable {Available : HistoryScope → Services → Prop} {b b' : Browser} {tab other : Nat}

@[simp] theorem Browser.view_put (b : Browser) (tab : Nat) (v : View) : (b.put tab v).view tab = v := by
  simp [Browser.view, Browser.put]

@[simp] theorem Browser.pages_put (b : Browser) (tab : Nat) (v : View) : (b.put tab v).pages tab = v.page := by
  simp [Browser.put]

theorem Browser.pages_put_of_ne (b : Browser) (v : View) (h : other ≠ tab) : (b.put tab v).pages other = b.pages other :=
  Function.update_of_ne h _ _

theorem Browser.put_put (b : Browser) (tab : Nat) (v w : View) : (b.put tab v).put tab w = b.put tab w := by
  simp [Browser.put]

theorem Browser.put_view (b : Browser) (tab : Nat) : b.put tab (b.view tab) = b := by
  simp [Browser.put, Browser.view]

/-- What the steps of a page keep, whatever is stored, holds of all pages. -/
theorem forall_pages_trace {P : Page → Prop} (hnew : ∀ scope, P (.new scope))
    (hkeeps : ∀ v event v', SessionStep Available v event v' → P v.page → P v'.page) {scope : HistoryScope}
    {events : List (Nat × SessionEvent)} (hrun : Trace (BrowserStep Available) (.new scope) events b) :
    ∀ tab, P (b.pages tab) := by
  refine hrun.invariant (I := fun b => ∀ tab, P (b.pages tab)) ?_ fun _ => hnew scope
  rintro b _ _ h ⟨step⟩ other
  rename_i tab event v
  by_cases heq : other = tab
  · rw [heq, Browser.pages_put]
    exact hkeeps _ _ _ step (h tab)
  · rw [Browser.pages_put_of_ne b v heq]
    exact h other

/-- A run of one page, with the others standing still. -/
theorem trace_of_page (b : Browser) (tab : Nat) {events : List SessionEvent} {v v' : View}
    (h : Trace (SessionStep Available) v events v') (hview : b.view tab = v) :
    Trace (BrowserStep Available) b (events.map (tab, ·)) (b.put tab v') := by
  induction h generalizing b with
  | nil v =>
    rw [← hview, Browser.put_view]
    exact .nil b
  | @cons v m v' event events head tail ih =>
    rw [← hview] at head
    have hrest := ih (b.put tab m) (Browser.view_put b tab m)
    rw [Browser.put_put] at hrest
    exact .cons (.page head) hrest

end Pages

/-! ## Marks -/

/-- What the marks of a deployment are to mean. -/
structure Meaning where
  /-- Of a digest with a verified proof. -/
  Included : Bytes → Prop
  /-- Of a height with a verified certificate. -/
  Certified : Int → Prop

/-- The marks of a transaction are true. -/
structure Marked (meaning : Meaning) (tx : SubmittedTransaction) : Prop where
  proof : ∀ detail location tip size, tx.proof = .verified detail location tip size →
    meaning.Included (fromHex tx.digest)
  certificate : ∀ detail height view, tx.certificate = .verified detail height view →
    ∃ height ∈ tx.finalizedHeight, meaning.Certified height

/-- A history of the page: no more than a hundred transactions, each once, with true marks. -/
structure Good (meaning : Meaning) (history : List SubmittedTransaction) : Prop where
  valid : ∀ tx ∈ history, tx.Valid
  marked : ∀ tx ∈ history, Marked meaning tx
  nodup : (history.map SubmittedTransaction.digest).Nodup
  length_le : history.length ≤ 100

namespace Good

variable {meaning : Meaning} {history : List SubmittedTransaction}

theorem nil : Good meaning [] := ⟨List.forall_mem_nil _, List.forall_mem_nil _, List.nodup_nil, Nat.zero_le _⟩

/-- An update of every transaction that keeps its digest. -/
theorem map (h : Good meaning history) {f : SubmittedTransaction → SubmittedTransaction}
    (hdigest : ∀ tx, (f tx).digest = tx.digest) (hvalid : ∀ tx, tx.Valid → (f tx).Valid)
    (hmarked : ∀ tx, Marked meaning tx → Marked meaning (f tx)) : Good meaning (history.map f) := by
  refine ⟨?_, ?_, ?_, by simpa using h.length_le⟩
  · exact List.forall_mem_map.2 fun tx htx => hvalid tx (h.valid tx htx)
  · exact List.forall_mem_map.2 fun tx htx => hmarked tx (h.marked tx htx)
  · have hdigests : (history.map f).map SubmittedTransaction.digest = history.map SubmittedTransaction.digest := by
      rw [List.map_map]
      exact List.map_congr_left fun tx _ => hdigest tx
    rw [hdigests]
    exact h.nodup

/-- An update of some transactions. -/
theorem mapIf (h : Good meaning history) {c : SubmittedTransaction → Prop} [DecidablePred c]
    {f : SubmittedTransaction → SubmittedTransaction} (hdigest : ∀ tx, (f tx).digest = tx.digest)
    (hvalid : ∀ tx, tx.Valid → (f tx).Valid) (hmarked : ∀ tx, c tx → Marked meaning tx → Marked meaning (f tx)) :
    Good meaning (history.map fun tx => if c tx then f tx else tx) := by
  apply h.map
  · intro tx
    split
    · exact hdigest tx
    · rfl
  · intro tx htx
    split
    · exact hvalid tx htx
    · exact htx
  · intro tx htx
    split
    · rename_i hc
      exact hmarked tx hc htx
    · exact htx

theorem prepend (h : Good meaning history) {tx : SubmittedTransaction} (hvalid : tx.Valid) (hmarked : Marked meaning tx) :
    Good meaning (prependTransaction tx history) := by
  have hsublist := List.take_sublist 100 (tx :: history.filter fun item => item.digest ≠ tx.digest)
  have hfilter : ∀ item ∈ history.filter fun item => item.digest ≠ tx.digest, item ∈ history :=
    fun item hitem => (List.mem_filter.1 hitem).1
  refine ⟨?_, ?_, ?_, List.length_take_le _ _⟩
  · intro item hitem
    rcases List.mem_cons.1 (hsublist.subset hitem) with rfl | hitem
    · exact hvalid
    · exact h.valid item (hfilter item hitem)
  · intro item hitem
    rcases List.mem_cons.1 (hsublist.subset hitem) with rfl | hitem
    · exact hmarked
    · exact h.marked item (hfilter item hitem)
  · refine List.Nodup.sublist (hsublist.map _) ?_
    rw [List.map_cons, List.nodup_cons]
    refine ⟨?_, h.nodup.sublist (List.filter_sublist.map _)⟩
    rintro hmem
    obtain ⟨item, hitem, heq⟩ := List.mem_map.1 hmem
    exact absurd heq (by simpa using (List.mem_filter.1 hitem).2)

theorem updateStatus (h : Good meaning history) (digest : List Char) (status : TxStatus) (detail : List Char)
    (now : Int) : Good meaning (updateTransactionStatus digest status detail now history) := by
  refine h.mapIf (fun _ => rfl) ?_ ?_
  · rintro tx ⟨hsender, htoKey, -⟩
    exact ⟨hsender, htoKey, by cases status <;> simp [TxStatus.status]⟩
  · -- a new status clears the marks
    rintro tx - -
    constructor
    · intro _ _ _ _ heq
      cases status with
      | finalized height => cases heq
      | dropped => cases heq
      | partiallyFinalized height included filtered =>
        simp only [nextProofState] at heq
        split at heq
        · cases heq
        · cases heq
    · intro _ _ _ heq
      cases status <;> cases heq

theorem updateProof (h : Good meaning history) (digest : List Char) {proof : TransactionProofState}
    (hproof : ∀ detail location tip size, proof = .verified detail location tip size →
      meaning.Included (fromHex digest)) :
    Good meaning (updateTransactionProof digest proof history) := by
  refine h.mapIf (fun _ => rfl) ?_ ?_
  · rintro tx ⟨hsender, htoKey, hstatus⟩
    exact ⟨hsender, htoKey, hstatus⟩
  · rintro tx heq ⟨-, hcertificate⟩
    refine ⟨?_, hcertificate⟩
    rw [heq]
    exact hproof

theorem certifyHeight (h : Good meaning history) {height : Nat} (hheight : meaning.Certified (Double.round height))
    (view : Nat) : Good meaning (certifyHeight height view history).1 := by
  unfold App.certifyHeight updateBlockCertificateByHeight
  split
  · refine h.mapIf (fun _ => rfl) ?_ ?_
    · rintro tx ⟨hsender, htoKey, hstatus⟩
      exact ⟨hsender, htoKey, hstatus⟩
    · rintro tx hlacks ⟨hproof, -⟩
      have hfinalized : tx.finalizedHeight = some (Double.round height) := by
        simp only [lacksCertificate, decide_eq_true_eq] at hlacks
        exact hlacks.1
      exact ⟨hproof, fun _ _ _ _ => ⟨_, hfinalized, hheight⟩⟩
  · exact h

theorem resumed (h : Good meaning history) : Good meaning (history.map SubmittedTransaction.resumed) := by
  apply h.map
  · intro tx
    rfl
  · rintro tx ⟨hsender, htoKey, hstatus⟩
    exact ⟨hsender, htoKey, hstatus⟩
  · rintro tx ⟨hproof, hcertificate⟩
    constructor
    · intro detail location tip size heq
      cases hstate : tx.proof <;> simp [SubmittedTransaction.resumed, hstate] at heq
      exact hproof _ _ _ _ hstate
    · intro detail height view heq
      cases hstate : tx.certificate with
      | verified detail height view => exact hcertificate _ _ _ hstate
      | fetching detail =>
        simp only [SubmittedTransaction.resumed, hstate, defaultBlockCertificate] at heq
        split at heq
        · cases heq
        · cases heq
      | waiting detail => simp [SubmittedTransaction.resumed, hstate] at heq
      | error detail => simp [SubmittedTransaction.resumed, hstate] at heq

end Good

/-- The verification material names what a deployment means by its marks. -/
def meaningOf (meanings : List Char → Meaning) (scope : HistoryScope) : Meaning :=
  meanings (normalizeScopeValue scope.simplexVerificationMaterial)

/-- What the services of a deployment prove is meant by its marks. -/
structure Proves (meanings : List Char → Meaning) (Available : HistoryScope → Services → Prop) : Prop where
  target : ∀ scope services, Available scope services → ∀ height target,
    fetchFinalizedTransactionTarget services scope.storeUrl scope.simplexVerificationMaterial height = .ok target →
    (meaningOf meanings scope).Certified (Double.round target.height)
  transaction : ∀ scope services, Available scope services → ∀ digest height proof,
    fetchAndVerifyTransactionProof services scope.qmdbUrl scope.storeUrl scope.indexerUrl
      scope.simplexVerificationMaterial digest height = .ok proof →
    (meaningOf meanings scope).Included (fromHex digest) ∧
      (meaningOf meanings scope).Certified (Double.round proof.height)

/-- Everything a page shows and everything stored has true marks, each deployment with its own meaning. -/
structure View.Sound (meanings : List Char → Meaning) (v : View) : Prop where
  page : Good (meaningOf meanings v.page.scope) v.page.history
  rendered : ∀ render ∈ v.page.rendered, Good (meaningOf meanings v.page.scope) render.history
  stored : ∀ scope account key json, submittedTransactionHistoryKey scope (some account) = some key →
    v.storage key = some json → ∃ history, json = historyJson history ∧ Good (meaningOf meanings scope) history

section Sound

variable {meanings : List Char → Meaning} {v : View}

theorem Browser.new_sound (scope : HistoryScope) (tab : Nat) : ((Browser.new scope).view tab).Sound meanings :=
  ⟨Good.nil, (fun _ h => by cases h), (fun _ _ _ _ _ h => by cases h)⟩

/-- An update of the history. -/
theorem View.Sound.setPage (h : v.Sound meanings) {page : Page} (hscope : page.scope = v.page.scope)
    (hrendered : page.rendered = v.page.rendered) (hhistory : Good (meaningOf meanings v.page.scope) page.history) :
    ({ v with page } : View).Sound meanings := by
  refine ⟨?_, ?_, h.stored⟩
  · rw [hscope]
    exact hhistory
  · rw [hscope, hrendered]
    exact h.rendered

/-- What the effect that loads a history does to the page: nothing, or the history of the rendered key takes the place
of the one shown. -/
theorem Page.loadHistory_cases (page : Page) (storage : List Char → Option Json) (render : Rendered) :
    page.loadHistory storage render = page ∨
    ∃ history, page.loadHistory storage render =
        { page.setHistory history with loadedHistoryKey := page.historyKey render } ∧
      (history = [] ∨ ∃ key, page.historyKey render = some key ∧ history = readHistory (storage key)) := by
  unfold Page.loadHistory
  split
  · exact .inl rfl
  · refine .inr ⟨_, rfl, ?_⟩
    cases page.historyKey render with
    | none => exact .inl rfl
    | some key => exact .inr ⟨key, rfl, rfl⟩

theorem Page.loadHistory_good (h : v.Sound meanings) (render : Rendered) :
    Good (meaningOf meanings v.page.scope) (v.page.loadHistory v.storage render).history := by
  rcases v.page.loadHistory_cases v.storage render with heq | ⟨history, heq, hhistory⟩
  · rw [heq]
    exact h.page
  rw [heq]
  rcases hhistory with rfl | ⟨key, hkey, rfl⟩
  · exact Good.nil
  · obtain ⟨account, haccount, -⟩ := Option.map_eq_some_iff.1 hkey
    rw [Page.historyKey, haccount] at hkey
    show Good _ (readHistory (v.storage key))
    cases hstored : v.storage key with
    | none => exact Good.nil
    | some json =>
      obtain ⟨history, rfl, hgood⟩ := h.stored _ _ _ _ hkey hstored
      rw [readHistory_json hgood.valid]
      exact hgood.resumed

/-- What the effect that fetches a proof does to the page: one proof is fetched, or nothing happens because nothing
has changed, a proof is being fetched or none is due. -/
theorem Page.fetchProof_cases (page : Page) (render : Rendered) :
    (page.fetchProof render = page ∧
      (page.settled.map (fun settled => (settled.version, settled.signedInAccountKey)) =
          some (render.version, render.signedInAccountKey) ∨
        hasFetchingProof render.history render.signedInAccountKey = true ∨
        ∀ tx ∈ render.history, shouldFetchTransactionProof tx render.signedInAccountKey = false)) ∨
    ∃ tx : SubmittedTransaction, page.fetchProof render = { page.setHistory
        (updateTransactionProof tx.digest (.fetching "fetching QMDB proof".toList) page.history) with
      fetches := (tx.digest, tx.finalizedHeight.getD 0) :: page.fetches } := by
  unfold Page.fetchProof
  split
  · rename_i hsettled
    exact .inl ⟨rfl, .inl hsettled⟩
  · split
    · rename_i hfetching
      exact .inl ⟨rfl, .inr (.inl hfetching)⟩
    · split
      · rename_i hnone
        exact .inl ⟨rfl, .inr (.inr (by simpa using hnone))⟩
      · rename_i tx hfind
        exact .inr ⟨tx, rfl⟩

/-- What the effect that stores a history does: it stores the rendered one under its key, or nothing happens because
nothing has changed or the history is of another key. -/
theorem Page.saveHistory_cases (page : Page) (storage : List Char → Option Json) (render : Rendered) :
    (page.saveHistory storage render = storage ∧
      (page.settled.map (fun settled => (page.historyKey settled, settled.loadedHistoryKey, settled.version)) =
          some (page.historyKey render, render.loadedHistoryKey, render.version) ∨
        ∀ key, page.historyKey render = some key → render.loadedHistoryKey ≠ some key)) ∨
    ∃ key, page.historyKey render = some key ∧
      page.saveHistory storage render = Function.update storage key (some (historyJson render.history)) := by
  unfold Page.saveHistory
  split
  · rename_i hsettled
    exact .inl ⟨rfl, .inl hsettled⟩
  · cases hkey : page.historyKey render with
    | none => exact .inl ⟨rfl, .inr fun _ h => by cases h⟩
    | some key =>
      by_cases hloaded : render.loadedHistoryKey = some key
      · exact .inr ⟨key, rfl, by simp [hloaded]⟩
      · refine .inl ⟨by simp [hloaded], .inr ?_⟩
        rintro _ ⟨⟩
        exact hloaded

/-- The effects leave the scope and the last render, and only one of them loads a history. -/
theorem Page.effects_frame (page : Page) (storage : List Char → Option Json) (render : Rendered) :
    ((page.loadHistory storage render).fetchProof render).scope = page.scope ∧
      ((page.loadHistory storage render).fetchProof render).rendered = page.rendered ∧
      ((page.loadHistory storage render).fetchProof render).loadedHistoryKey =
        (page.loadHistory storage render).loadedHistoryKey := by
  have hload : (page.loadHistory storage render).scope = page.scope ∧
      (page.loadHistory storage render).rendered = page.rendered := by
    rcases page.loadHistory_cases storage render with heq | ⟨_, heq, -⟩
    · rw [heq]
      exact ⟨rfl, rfl⟩
    · rw [heq]
      exact ⟨rfl, rfl⟩
  rcases (page.loadHistory storage render).fetchProof_cases render with ⟨heq, -⟩ | ⟨tx, heq⟩
  · rw [heq]
    exact ⟨hload.1, hload.2, rfl⟩
  · rw [heq]
    exact ⟨hload.1, hload.2, rfl⟩

theorem View.Sound.runEffects (h : v.Sound meanings) {render : Rendered} (hrender : v.page.rendered = some render) :
    (v.runEffects render).Sound meanings := by
  have hload := Page.loadHistory_good h render
  have hgood : Good (meaningOf meanings v.page.scope)
      ((v.page.loadHistory v.storage render).fetchProof render).history := by
    rcases (v.page.loadHistory v.storage render).fetchProof_cases render with ⟨heq, -⟩ | ⟨tx, heq⟩
    · rw [heq]
      exact hload
    · rw [heq]
      exact hload.updateProof tx.digest fun _ _ _ _ h => by cases h
  obtain ⟨hscope, hrendered, -⟩ := v.page.effects_frame v.storage render
  refine ⟨?_, ?_, ?_⟩
  · show Good (meaningOf meanings ((v.page.loadHistory v.storage render).fetchProof render).scope) _
    rw [hscope]
    exact hgood
  · show ∀ r ∈ ((v.page.loadHistory v.storage render).fetchProof render).rendered,
      Good (meaningOf meanings ((v.page.loadHistory v.storage render).fetchProof render).scope) r.history
    rw [hscope, hrendered]
    exact h.rendered
  · intro scope account key json hkey hstored
    change v.page.saveHistory v.storage render key = some json at hstored
    rcases v.page.saveHistory_cases v.storage render with ⟨heq, -⟩ | ⟨own, hown, heq⟩
    · rw [heq] at hstored
      exact h.stored scope account key json hkey hstored
    rw [heq] at hstored
    by_cases hsame : key = own
    · -- a key is of one deployment only
      subst hsame
      rw [Function.update_self] at hstored
      obtain ⟨account', haccount, -⟩ := Option.map_eq_some_iff.1 hown
      rw [Page.historyKey, haccount] at hown
      have hmeaning : meaningOf meanings scope = meaningOf meanings v.page.scope :=
        congrArg (fun text => meanings (encodeURIComponent text)) (historyKey_inj hkey hown).1
      exact ⟨render.history, (Option.some.inj hstored).symm, hmeaning ▸ h.rendered render hrender⟩
    · rw [Function.update_of_ne hsame] at hstored
      exact h.stored scope account key json hkey hstored

theorem View.Sound.clearHistory (h : v.Sound meanings) (key : Option (List Char)) : (v.clearHistory key).Sound meanings := by
  refine ⟨Good.nil, h.rendered, ?_⟩
  intro scope account key' json hkey' hstored
  cases key with
  | none => exact h.stored scope account key' json hkey' hstored
  | some key =>
    change Function.update v.storage key none key' = some json at hstored
    by_cases hsame : key' = key
    · subst hsame
      rw [Function.update_self] at hstored
      cases hstored
    · rw [Function.update_of_ne hsame] at hstored
      exact h.stored scope account key' json hkey' hstored

variable {Available : HistoryScope → Services → Prop} (hproves : Proves meanings Available)

include hproves

theorem View.Sound.step {v' : View} {event : SessionEvent} (h : v.Sound meanings)
    (hstep : SessionStep Available v event v') : v'.Sound meanings := by
  cases hstep with
  | openPage scope => exact ⟨Good.nil, (fun _ h => by cases h), h.stored⟩
  | signIn account => exact h.setPage rfl rfl h.page
  | render flushed =>
    refine ⟨h.page, ?_, h.stored⟩
    rintro _ ⟨⟩
    exact h.page
  | effects shown => exact h.runEffects shown
  | sign hsender htoKey digest value nonce now =>
    refine h.setPage rfl rfl (h.page.prepend ⟨hsender, htoKey, fun _ heq => by cases heq⟩ ?_)
    exact ⟨(fun _ _ _ _ heq => by cases heq), (fun _ _ _ heq => by cases heq)⟩
  | answer digest status now => exact h.setPage rfl rfl (h.page.updateStatus digest status _ now)
  | certify available running fetched =>
    have hcertified := hproves.target _ _ available _ _ fetched
    rcases v.page.onFinalizationVerified_cases _ with heq | heq
    · rw [heq]
      exact h.setPage rfl rfl (h.page.certifyHeight hcertified _)
    · rw [heq]
      exact h
  | @prove services digest height proof available running fetched =>
    obtain ⟨hincluded, hcertified⟩ := hproves.transaction _ _ available _ _ _ fetched
    have hproof : Good (meaningOf meanings v.page.scope)
        (updateTransactionProof digest (verifiedProofState proof) v.page.history) :=
      h.page.updateProof digest fun _ _ _ _ _ => hincluded
    exact h.setPage rfl rfl (hproof.certifyHeight hcertified proof.view)
  | @failProof digest height detail running =>
    obtain ⟨proof, timers, heq, hproof⟩ := v.page.onProofError_cases digest height detail
    rw [heq]
    refine h.setPage rfl rfl (h.page.updateProof digest ?_)
    rintro _ _ _ _ rfl
    rcases hproof with ⟨hfetching, -⟩ | ⟨herror, -⟩
    · cases hfetching
    · cases herror
  | @retry digest running => exact h.setPage rfl rfl (h.page.updateProof digest fun _ _ _ _ heq => by cases heq)
  | clear shown => exact h.clearHistory _

/-- A page reads only what a page of the same deployment has stored, so true marks stay true. -/
theorem sound_trace {scope : HistoryScope} {events : List (Nat × SessionEvent)} {b : Browser}
    (hrun : Trace (BrowserStep Available) (.new scope) events b) : ∀ tab, (b.view tab).Sound meanings := by
  refine hrun.invariant (I := fun b => ∀ tab, (b.view tab).Sound meanings) ?_ (Browser.new_sound scope)
  rintro b _ _ h ⟨step⟩ other
  rename_i tab event v
  have hstep := (h tab).step hproves step
  by_cases heq : other = tab
  · rw [heq, Browser.view_put]
    exact hstep
  · have hpage := Browser.pages_put_of_ne b v heq
    refine ⟨?_, ?_, hstep.stored⟩
    · change Good (meaningOf meanings ((b.put tab v).pages other).scope) ((b.put tab v).pages other).history
      rw [hpage]
      exact (h other).page
    · change ∀ render ∈ ((b.put tab v).pages other).rendered,
        Good (meaningOf meanings ((b.put tab v).pages other).scope) render.history
      rw [hpage]
      exact (h other).rendered

end Sound

/-! ## A run -/

def walletScope : HistoryScope := ⟨[], [], [], [], ['0', '0']⟩

def walletAccount : List Char := List.replicate 64 'a'

def walletTransfer (digest : List Char) : SubmittedTransaction :=
  pendingTransaction walletAccount digest walletAccount ['5'] ['0'] 0

def otherDigestText : List Char := (List.replicate 32 ['0', '8']).flatten

def WalletServices (scope : HistoryScope) (services : Services) : Prop :=
  scope = walletScope ∧ services = lightServices lightLog

/-- A wallet signs in once the first effects have run, and two of its transactions become final. -/
def walletEvents : List SessionEvent :=
  [.opened walletScope, .rendered, .effectsRan, .signedIn (some walletAccount), .rendered, .effectsRan,
    .signed (walletTransfer otherDigestText), .answered otherDigestText (.finalized 1) 7,
    .signed (walletTransfer lightDigestText), .answered lightDigestText (.finalized 1) 7,
    .rendered, .effectsRan, .rendered, .effectsRan]

/-- The transaction is final. -/
def walletFinalized (digest : List Char) (proof : TransactionProofState) : SubmittedTransaction :=
  { walletTransfer digest with
    finalizedInMs := some 7
    status := .finalized
    detail := "finalized at 1".toList
    finalizedHeight := some 1
    certificate := waitingBlockCertificate
    proof := proof }

/-- The last render: the proof of one transaction is being fetched, that of the other is due. -/
def walletRendered : Rendered where
  signedInAccountKey := some walletAccount
  loadedHistoryKey := submittedTransactionHistoryKey walletScope (some walletAccount)
  version := 7
  history := [walletFinalized lightDigestText (.fetching "fetching QMDB proof".toList),
    walletFinalized otherDigestText (.waiting "waiting for QMDB proof".toList)]

def walletPage : Page where
  scope := walletScope
  walletAccountKey := walletRendered.signedInAccountKey
  loadedHistoryKey := walletRendered.loadedHistoryKey
  version := walletRendered.version
  history := walletRendered.history
  rendered := some walletRendered
  settled := some walletRendered
  fetches := [(lightDigestText, 1)]
  timers := []

theorem exists_walletPage : ∃ storage : List Char → Option Json,
    Trace (SessionStep WalletServices) ((Browser.new walletScope).view 0) walletEvents ⟨storage, walletPage⟩ := by
  refine ⟨_, .cons (.openPage walletScope) <| .cons (.render rfl) <| .cons (.effects rfl) <|
    .cons (.signIn (some walletAccount)) <| .cons (.render rfl) <| .cons (.effects rfl) <|
    .cons (.sign ?_ ?_ otherDigestText ['5'] ['0'] 0) <| .cons (.answer otherDigestText (.finalized 1) 7) <|
    .cons (.sign ?_ ?_ lightDigestText ['5'] ['0'] 0) <| .cons (.answer lightDigestText (.finalized 1) 7) <|
    .cons (.render rfl) <| .cons (.effects rfl) <| .cons (.render rfl) <| .cons (.effects rfl) <| .nil _⟩
  all_goals decide

/-- The same run, of the first page of a browser. -/
theorem exists_walletRun : ∃ b : Browser, b.pages 0 = walletPage ∧
    Trace (BrowserStep WalletServices) (.new walletScope) (walletEvents.map (0, ·)) b := by
  obtain ⟨storage, hrun⟩ := exists_walletPage
  exact ⟨_, Browser.pages_put _ _ _, trace_of_page _ 0 hrun rfl⟩

/-! ## On the chain -/

section Chain

variable {A : Application Digest} {codecs : HeaderCodecs Context Digest}

/-- A verified proof is to mean that the transaction is on the chain, a verified certificate that there is a block
at the height. -/
def chainMeaning (chain : FinalizedChain A codecs) : Meaning where
  Included digest := ∃ height, chain.Includes height digest
  Certified height := ∃ block ∈ chain.blocks, height = Double.round block.inner.header.height.toNat

theorem proves_chain {chains : List Char → FinalizedChain A codecs} {Available : HistoryScope → Services → Prop}
    (htrusted : ∀ scope services, Available scope services → Trusted services scope.simplexVerificationMaterial
      (chains (normalizeScopeValue scope.simplexVerificationMaterial)))
    (hcodecs : LaidOut codecs) (hfloor : A.qmdb.ReportsFloor) (hops : A.qmdb.AddsOps) :
    Proves (fun material => chainMeaning (chains material)) Available := by
  constructor
  · intro scope services available height target fetched
    obtain ⟨block, hblock, view, rfl, -⟩ := (htrusted _ _ available).target_at_height hcodecs fetched
    exact ⟨block, hblock, rfl⟩
  · intro scope services available digest height proof fetched
    obtain ⟨hheight, ⟨block, hblock, hblockHeight⟩, height', -, hincluded⟩ :=
      (htrusted _ _ available).verified_transaction hcodecs hfloor hops fetched
    rw [hheight]
    exact ⟨⟨height', hincluded⟩, block, hblock, by rw [hblockHeight]⟩

end Chain

end Constantinople.Explorer.App
