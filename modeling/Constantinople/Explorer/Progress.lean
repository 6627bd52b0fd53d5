/-
The wallet's history forgets nothing: a proof that a page shows as being fetched is being fetched or waits for its
timer, whatever wallets and answers came in between; and once the effects have seen the last change, a proof that is
due has one of these running before it, and the history shown is the history stored, as long as no other page stores
one for the same wallet.
-/
import Constantinople.Explorer.Session

namespace Constantinople.Explorer.App

open Constantinople Run

/-! ## Running tasks -/

/-- A fetch or a timer will update the proof of a digest. -/
def Page.Busy (page : Page) (digest : List Char) : Prop :=
  (∃ height, (digest, height) ∈ page.fetches) ∨ digest ∈ page.timers

/-- Every proof that is shown as being fetched is. -/
def Page.Running (page : Page) : Prop := ∀ tx ∈ page.history, tx.proof.isFetching = true → page.Busy tx.digest

theorem mem_updateTransactionProof {digest : List Char} {proof : TransactionProofState}
    {history : List SubmittedTransaction} {tx : SubmittedTransaction}
    (h : tx ∈ updateTransactionProof digest proof history) :
    (tx.digest = digest ∧ tx.proof = proof) ∨ (tx.digest ≠ digest ∧ tx ∈ history) := by
  obtain ⟨tx, htx, rfl⟩ := List.mem_map.1 h
  split
  · rename_i hdigest
    exact .inl ⟨hdigest, rfl⟩
  · rename_i hdigest
    exact .inr ⟨hdigest, htx⟩

theorem mem_certifyHeight {height view : Nat} {history : List SubmittedTransaction} {tx : SubmittedTransaction}
    (h : tx ∈ (certifyHeight height view history).1) : ∃ tx' ∈ history, tx'.digest = tx.digest ∧ tx'.proof = tx.proof := by
  have hmem := List.mem_map_of_mem (f := fun tx => (tx.digest, tx.proof)) h
  rw [certifyHeight_proofs] at hmem
  obtain ⟨tx', htx', heq⟩ := List.mem_map.1 hmem
  obtain ⟨hdigest, hproof⟩ := Prod.mk.inj heq
  exact ⟨tx', htx', hdigest, hproof⟩

theorem nextProofState_isFetching (status : TxStatus) (digest : List Char) :
    (nextProofState status digest).isFetching = false := by
  cases status with
  | finalized height => rfl
  | dropped => rfl
  | partiallyFinalized height included filtered =>
    unfold nextProofState
    dsimp only
    split
    · rfl
    · rfl

theorem normalizeTransactionProof_isFetching (value : Option Json) :
    (normalizeTransactionProof value).isFetching = false := by
  unfold normalizeTransactionProof
  split
  · rfl
  · dsimp only
    split
    · split
      · rfl
      · split
        · rfl
        · split
          · rfl
          · rfl
    · split
      · rfl
      · rfl

/-- No proof is being fetched in a history that has just been read. -/
theorem readHistory_isFetching {raw : Option Json} {tx : SubmittedTransaction} (h : tx ∈ readHistory raw) :
    tx.proof.isFetching = false := by
  unfold readHistory at h
  split at h
  · obtain ⟨item, -, hitem⟩ := List.mem_filterMap.1 h
    unfold normalizeSubmittedTransaction at hitem
    simp only [Option.bind_eq_bind, Option.bind_eq_some_iff] at hitem
    obtain ⟨_, -, _, -, _, -, _, -, _, -, _, -, _, -, _, -, hitem⟩ := hitem
    split at hitem
    · cases hitem
    · cases hitem
      exact normalizeTransactionProof_isFetching _
  · cases h

/-- A task of one digest ends; those of the others go on. -/
theorem Page.Busy.erase {page page' : Page} {digest digest' : List Char} {height : Int} (h : page.Busy digest')
    (hne : digest' ≠ digest) (hfetches : page'.fetches = page.fetches.erase (digest, height))
    (htimers : ∀ other ∈ page.timers, other ∈ page'.timers) : page'.Busy digest' := by
  rcases h with ⟨height', hfetch⟩ | htimer
  · refine .inl ⟨height', ?_⟩
    rw [hfetches]
    exact (List.mem_erase_of_ne fun heq => hne (Prod.mk.inj heq).1).2 hfetch
  · exact .inr (htimers digest' htimer)

theorem Page.Running.runEffects {v : View} (h : v.page.Running) (render : Rendered) :
    (v.runEffects render).page.Running := by
  have hload : (v.page.loadHistory v.storage render).Running := by
    rcases v.page.loadHistory_cases v.storage render with heq | ⟨history, heq, hhistory⟩
    · rw [heq]
      exact h
    rw [heq]
    intro tx htx hfetching
    rcases hhistory with rfl | ⟨key, -, rfl⟩
    · cases htx
    · rw [readHistory_isFetching htx] at hfetching
      cases hfetching
  rcases (v.page.loadHistory v.storage render).fetchProof_cases render with ⟨heq, -⟩ | ⟨tx, heq⟩
  · show ({ (v.page.loadHistory v.storage render).fetchProof render with settled := some render } : Page).Running
    rw [heq]
    exact hload
  · show ({ (v.page.loadHistory v.storage render).fetchProof render with settled := some render } : Page).Running
    rw [heq]
    intro tx' htx' hfetching
    rcases mem_updateTransactionProof htx' with ⟨hdigest, -⟩ | ⟨-, hmem⟩
    · rw [hdigest]
      exact .inl ⟨_, List.mem_cons_self⟩
    · rcases hload tx' hmem hfetching with ⟨height, hfetch⟩ | htimer
      · exact .inl ⟨height, List.mem_cons_of_mem _ hfetch⟩
      · exact .inr htimer

theorem Page.Running.step {Available : HistoryScope → Services → Prop} {v v' : View} {event : SessionEvent}
    (h : v.page.Running) (hstep : SessionStep Available v event v') : v'.page.Running := by
  cases hstep with
  | openPage scope => exact List.forall_mem_nil _
  | signIn account => exact h
  | render flushed => exact h
  | effects shown => exact h.runEffects _
  | sign hsender htoKey digest value nonce now =>
    intro tx htx hfetching
    rcases List.mem_cons.1 (List.mem_of_mem_take htx) with rfl | htx
    · cases hfetching
    · exact h tx (List.mem_filter.1 htx).1 hfetching
  | answer digest status now =>
    intro tx htx hfetching
    obtain ⟨tx, hmem, rfl⟩ := List.mem_map.1 htx
    split at hfetching
    · rw [nextProofState_isFetching] at hfetching
      cases hfetching
    · rename_i hdigest
      rw [if_neg hdigest]
      exact h tx hmem hfetching
  | certify available running fetched =>
    rcases v.page.onFinalizationVerified_cases _ with heq | heq
    · rw [heq]
      intro tx htx hfetching
      obtain ⟨tx', hmem, hdigest, hproof⟩ := mem_certifyHeight htx
      rw [← hproof] at hfetching
      rw [← hdigest]
      exact h tx' hmem hfetching
    · rw [heq]
      exact h
  | @prove services digest height proof available running fetched =>
    intro tx htx hfetching
    obtain ⟨tx', hmem, hdigest, hproof⟩ := mem_certifyHeight htx
    rw [← hproof] at hfetching
    rw [← hdigest]
    rcases mem_updateTransactionProof hmem with ⟨-, hverified⟩ | ⟨hne, hmem⟩
    · rw [hverified] at hfetching
      cases hfetching
    · exact (h tx' hmem hfetching).erase hne rfl fun _ htimer => htimer
  | @failProof digest height detail running =>
    obtain ⟨proof, timers, heq, hproof⟩ := v.page.onProofError_cases digest height detail
    rw [heq]
    intro tx htx hfetching
    rcases mem_updateTransactionProof htx with ⟨hdigest, hshown⟩ | ⟨hne, hmem⟩
    · rcases hproof with ⟨-, rfl⟩ | ⟨rfl, -⟩
      · exact .inr (hdigest ▸ List.mem_cons_self)
      · rw [hshown] at hfetching
        cases hfetching
    · refine (h tx hmem hfetching).erase hne rfl ?_
      rcases hproof with ⟨-, rfl⟩ | ⟨-, rfl⟩
      · exact fun _ htimer => List.mem_cons_of_mem _ htimer
      · exact fun _ htimer => htimer
  | @retry digest running =>
    intro tx htx hfetching
    rcases mem_updateTransactionProof htx with ⟨-, hwaiting⟩ | ⟨hne, hmem⟩
    · rw [hwaiting] at hfetching
      cases hfetching
    · rcases h tx hmem hfetching with hfetch | htimer
      · exact .inl hfetch
      · exact .inr ((List.mem_erase_of_ne hne).2 htimer)
  | clear shown => exact List.forall_mem_nil _

/-! ## Effects that have seen everything -/

/-- A picture of the page, which is still true as long as the history has its number. -/
def Page.Pictured (page : Page) (render : Rendered) : Prop :=
  render.version ≤ page.version ∧ (render.version = page.version → render.history = page.history)

/-- A page whose effects, as long as the history has the number they saw, need not run again. -/
structure Page.Steady (page : Page) : Prop where
  rendered : ∀ render ∈ page.rendered, page.Pictured render
  settled : ∀ render ∈ page.settled, page.Pictured render
  checked : ∀ render ∈ page.settled, render.version = page.version →
    hasFetchingProof render.history render.signedInAccountKey = true ∨
      ∀ tx ∈ render.history, shouldFetchTransactionProof tx render.signedInAccountKey = false
  loaded : ∀ render ∈ page.settled, page.loadedHistoryKey = page.historyKey render

/-- The history that the effects saw under a key is what is stored there. -/
def Page.Saved (key : List Char) (page : Page) (stored : Option Json) : Prop :=
  ∀ render ∈ page.settled, render.version = page.version → page.historyKey render = some key →
    render.loadedHistoryKey = some key → stored = some (historyJson render.history)

/-- The effects have not seen the history as it is, so that those of the next render run. -/
def Page.Unseen (page : Page) : Prop := ∀ render ∈ page.settled, render.version ≠ page.version

theorem Page.Steady.new (scope : HistoryScope) : (Page.new scope).Steady :=
  ⟨(fun _ h => by cases h), (fun _ h => by cases h), (fun _ h => by cases h), fun _ h => by cases h⟩

/-- An update that makes a new list, and nothing else that the effects look at. -/
structure Page.NewList (page page' : Page) : Prop where
  scope : page'.scope = page.scope
  loadedHistoryKey : page'.loadedHistoryKey = page.loadedHistoryKey
  version : page'.version = page.version + 1
  rendered : page'.rendered = page.rendered
  settled : page'.settled = page.settled

namespace Page.Steady

variable {page page' : Page}

/-- A new list makes the pictures old. -/
theorem unseen (h : page.Steady) (hnew : page.NewList page') : page'.Unseen := by
  intro render hrender heq
  rw [hnew.settled] at hrender
  have hle := (h.settled render hrender).1
  rw [hnew.version] at heq
  omega

theorem newList (h : page.Steady) (hnew : page.NewList page') : page'.Steady := by
  have hpictured : ∀ render, page.Pictured render → page'.Pictured render := by
    rintro render ⟨hle, -⟩
    have hversion := hnew.version
    exact ⟨by omega, fun heq => by omega⟩
  constructor
  · intro render hrender
    exact hpictured render (h.rendered render (hnew.rendered ▸ hrender))
  · intro render hrender
    exact hpictured render (h.settled render (hnew.settled ▸ hrender))
  · intro render hrender heq
    exact absurd heq (h.unseen hnew render hrender)
  · intro render hrender
    rw [hnew.loadedHistoryKey, h.loaded render (hnew.settled ▸ hrender), Page.historyKey, Page.historyKey, hnew.scope]

/-- Once the effect that loads a history has run, the one of the rendered key is loaded. -/
theorem loadHistory_loaded (h : page.Steady) (storage : List Char → Option Json) (render : Rendered) :
    (page.loadHistory storage render).loadedHistoryKey = page.historyKey render := by
  unfold Page.loadHistory
  split
  · rename_i hsame
    obtain ⟨settled, hsettled, heq⟩ := Option.map_eq_some_iff.1 hsame
    rw [← heq]
    exact h.loaded settled hsettled
  · rfl

end Page.Steady

/-- The effects make new lists, or leave the page as it is. -/
theorem Page.effects_cases (page : Page) (storage : List Char → Option Json) (render : Rendered) :
    page.version < ((page.loadHistory storage render).fetchProof render).version ∨
      ((page.loadHistory storage render).fetchProof render = page ∧ page.fetchProof render = page) := by
  have hload : page.loadHistory storage render = page ∨
      (page.loadHistory storage render).version = page.version + 1 := by
    rcases page.loadHistory_cases storage render with heq | ⟨_, heq, -⟩
    · exact .inl heq
    · rw [heq]
      exact .inr rfl
  rcases hload with hload | hload
  · rw [hload]
    rcases page.fetchProof_cases render with ⟨heq, -⟩ | ⟨tx, heq⟩
    · exact .inr ⟨heq, heq⟩
    · rw [heq]
      exact .inl (Nat.lt_succ_self _)
  · rcases (page.loadHistory storage render).fetchProof_cases render with ⟨heq, -⟩ | ⟨tx, heq⟩
    · rw [heq]
      exact .inl (by omega)
    · rw [heq]
      refine .inl ?_
      show _ < (page.loadHistory storage render).version + 1
      omega

theorem Page.Steady.runEffects {v : View} (h : v.page.Steady) {render : Rendered}
    (hrender : v.page.rendered = some render) : (v.runEffects render).page.Steady := by
  obtain ⟨hscope, hrendered, hkey⟩ := v.page.effects_frame v.storage render
  have hpicture := h.rendered render hrender
  have hloaded : (v.runEffects render).page.loadedHistoryKey = (v.runEffects render).page.historyKey render := by
    change ((v.page.loadHistory v.storage render).fetchProof render).loadedHistoryKey =
      submittedTransactionHistoryKey ((v.page.loadHistory v.storage render).fetchProof render).scope _
    rw [hkey, h.loadHistory_loaded, hscope]
    rfl
  rcases v.page.effects_cases v.storage render with hnew | ⟨hpage, hfetch⟩
  · -- the effects made a new list, so they will run again
    have hold : ∀ r, v.page.Pictured r → (v.runEffects render).page.Pictured r := by
      rintro r ⟨hle, -⟩
      exact ⟨hle.trans hnew.le, fun heq => absurd heq (lt_of_le_of_lt hle hnew).ne⟩
    have hversion : render.version ≠ (v.runEffects render).page.version := (lt_of_le_of_lt hpicture.1 hnew).ne
    constructor
    · intro r hr
      change r ∈ ((v.page.loadHistory v.storage render).fetchProof render).rendered at hr
      rw [hrendered] at hr
      exact hold r (h.rendered r hr)
    · rintro _ ⟨⟩
      exact hold render hpicture
    · rintro _ ⟨⟩ heq
      exact absurd heq hversion
    · rintro _ ⟨⟩
      exact hloaded
  · have heffects : (v.runEffects render).page = { v.page with settled := some render } := by
      unfold View.runEffects
      rw [hpage]
    rw [heffects] at hloaded ⊢
    refine ⟨h.rendered, ?_, ?_, ?_⟩
    · rintro _ ⟨⟩
      exact hpicture
    · rintro _ ⟨⟩ hversion
      rcases v.page.fetchProof_cases render with ⟨-, hdeps | hreason⟩ | ⟨tx, heq⟩
      · -- an earlier render that saw the same list saw the same history
        obtain ⟨r, hr, heq⟩ := Option.map_eq_some_iff.1 hdeps
        obtain ⟨hrversion, hsigned⟩ := Prod.mk.inj heq
        have hrpage := hrversion.trans hversion
        rw [← ((h.settled r hr).2 hrpage).trans (hpicture.2 hversion).symm, ← hsigned]
        exact h.checked r hr hrpage
      · exact hreason
      · rw [hfetch] at heq
        have := congrArg Page.version heq
        exact absurd this (Nat.lt_succ_self _).ne
    · rintro _ ⟨⟩
      exact hloaded

/-- The effects store the history they saw, or it was stored before. -/
theorem Page.Saved.runEffects {key : List Char} {v : View} (h : v.page.Saved key (v.storage key)) (hsteady : v.page.Steady)
    {render : Rendered} (hrender : v.page.rendered = some render) :
    (v.runEffects render).page.Saved key ((v.runEffects render).storage key) := by
  obtain ⟨hscope, -, -⟩ := v.page.effects_frame v.storage render
  have hpicture := hsteady.rendered render hrender
  rintro _ ⟨⟩ hversion hkey hloaded
  change submittedTransactionHistoryKey ((v.page.loadHistory v.storage render).fetchProof render).scope _ = some key at hkey
  rw [hscope] at hkey
  rcases v.page.effects_cases v.storage render with hnew | ⟨hpage, -⟩
  · exact absurd hversion (lt_of_le_of_lt hpicture.1 hnew).ne
  change render.version = ((v.page.loadHistory v.storage render).fetchProof render).version at hversion
  rw [hpage] at hversion
  show v.page.saveHistory v.storage render key = _
  rcases v.page.saveHistory_cases v.storage render with ⟨hsave, hdeps | hother⟩ | ⟨own, hown, hsave⟩
  · obtain ⟨r, hr, heq⟩ := Option.map_eq_some_iff.1 hdeps
    obtain ⟨hrkey, heq⟩ := Prod.mk.inj heq
    obtain ⟨hrloaded, hrversion⟩ := Prod.mk.inj heq
    have hrpage := hrversion.trans hversion
    rw [hsave, ← ((hsteady.settled r hr).2 hrpage).trans (hpicture.2 hversion).symm]
    exact h r hr hrpage (hrkey.trans hkey) (hrloaded.trans hloaded)
  · exact absurd hloaded (hother key hkey)
  · obtain rfl := Option.some.inj (hown.symm.trans hkey)
    rw [hsave, Function.update_self]

/-- A task for the proof of a digest ends. -/
def SessionEvent.Ends (digest : List Char) : SessionEvent → Prop
  | .proved digest' _ => digest' = digest
  | .proofFailed digest' _ => digest' = digest
  | .retried digest' => digest' = digest
  | _ => False

theorem SessionStep.newList_of_ends {Available : HistoryScope → Services → Prop} {v v' : View} {event : SessionEvent}
    {digest : List Char} (hstep : SessionStep Available v event v') (hends : event.Ends digest) :
    v.page.NewList v'.page := by
  cases hstep with
  | prove available running fetched => exact ⟨rfl, rfl, rfl, rfl, rfl⟩
  | @failProof digest height detail running =>
    obtain ⟨proof, timers, heq, -⟩ := v.page.onProofError_cases digest height detail
    rw [heq]
    exact ⟨rfl, rfl, rfl, rfl, rfl⟩
  | retry running => exact ⟨rfl, rfl, rfl, rfl, rfl⟩
  | openPage | signIn | render | effects | sign | answer | certify | clear => cases hends

/-- What the steps do that neither open a page nor run its effects: a new list, or nothing that the effects have seen
changes. -/
theorem SessionStep.newList_or {Available : HistoryScope → Services → Prop} {v v' : View} {event : SessionEvent}
    (hstep : SessionStep Available v event v') (hopened : ∀ scope, event ≠ .opened scope) (heffects : event ≠ .effectsRan)
    (hrendered : event ≠ .rendered) :
    v.page.NewList v'.page ∨ (∃ account, v' = { v with page := { v.page with walletAccountKey := account } }) ∨ v' = v := by
  by_cases hends : ∃ digest, event.Ends digest
  · obtain ⟨digest, hends⟩ := hends
    exact .inl (hstep.newList_of_ends hends)
  cases hstep with
  | openPage scope => exact absurd rfl (hopened scope)
  | signIn account => exact .inr (.inl ⟨account, rfl⟩)
  | render flushed => exact absurd rfl hrendered
  | effects shown => exact absurd rfl heffects
  | sign hsender htoKey digest value nonce now => exact .inl ⟨rfl, rfl, rfl, rfl, rfl⟩
  | answer digest status now => exact .inl ⟨rfl, rfl, rfl, rfl, rfl⟩
  | certify available running fetched =>
    rcases v.page.onFinalizationVerified_cases _ with heq | heq
    · rw [heq]
      exact .inl ⟨rfl, rfl, rfl, rfl, rfl⟩
    · rw [heq]
      exact .inr (.inr rfl)
  | clear shown => exact .inl ⟨rfl, rfl, rfl, rfl, rfl⟩
  | prove | failProof | retry => exact absurd ⟨_, rfl⟩ hends

theorem Page.Steady.step {Available : HistoryScope → Services → Prop} {v v' : View} {event : SessionEvent}
    (h : v.page.Steady) (hstep : SessionStep Available v event v') : v'.page.Steady := by
  cases event with
  | opened scope =>
    cases hstep
    exact .new scope
  | effectsRan =>
    cases hstep with
    | effects shown => exact h.runEffects shown
  | rendered =>
    cases hstep
    refine ⟨?_, h.settled, h.checked, h.loaded⟩
    rintro _ ⟨⟩
    exact ⟨le_rfl, fun _ => rfl⟩
  | signedIn | signed | answered | certified | proved | proofFailed | retried | cleared =>
    rcases hstep.newList_or (by rintro _ ⟨⟩) (by rintro ⟨⟩) (by rintro ⟨⟩) with hnew | ⟨account, rfl⟩ | rfl
    · exact h.newList hnew
    · exact ⟨h.rendered, h.settled, h.checked, h.loaded⟩
    · exact h

theorem Page.Saved.step {Available : HistoryScope → Services → Prop} {key : List Char} {v v' : View} {event : SessionEvent}
    (h : v.page.Saved key (v.storage key)) (hsteady : v.page.Steady) (hstep : SessionStep Available v event v') :
    v'.page.Saved key (v'.storage key) := by
  cases event with
  | opened scope =>
    cases hstep
    rintro _ ⟨⟩
  | effectsRan =>
    cases hstep with
    | effects shown => exact h.runEffects hsteady shown
  | rendered =>
    cases hstep
    exact h
  | signedIn | signed | answered | certified | proved | proofFailed | retried | cleared =>
    rcases hstep.newList_or (by rintro _ ⟨⟩) (by rintro ⟨⟩) (by rintro ⟨⟩) with hnew | ⟨account, rfl⟩ | rfl
    · exact fun render hrender heq => absurd heq (hsteady.unseen hnew render hrender)
    · exact h
    · exact h

/-! ## Pages of the same wallet -/

/-- No other page than one stores or clears a history under a key. -/
def Browser.Spares (key : List Char) (tab : Nat) (b : Browser) (event : Nat × SessionEvent) : Prop :=
  event.1 ≠ tab → event.2 = .effectsRan ∨ event.2 = .cleared →
    ∀ render ∈ (b.pages event.1).rendered, (b.pages event.1).historyKey render ≠ some key

/-- The steps of a browser in which one page has a key for itself. -/
def SparingStep (Available : HistoryScope → Services → Prop) (key : List Char) (tab : Nat) (b : Browser)
    (event : Nat × SessionEvent) (b' : Browser) : Prop :=
  b.Spares key tab event ∧ BrowserStep Available b event b'

/-- The events of one page. -/
def ownEvents (tab : Nat) (events : List (Nat × SessionEvent)) : List SessionEvent :=
  (events.filter fun event => event.1 = tab).map Prod.snd

theorem SessionStep.storage_eq {Available : HistoryScope → Services → Prop} {v v' : View} {event : SessionEvent}
    {key : List Char} (hstep : SessionStep Available v event v')
    (hspares : event = .effectsRan ∨ event = .cleared → ∀ render ∈ v.page.rendered, v.page.historyKey render ≠ some key) :
    v'.storage key = v.storage key := by
  cases hstep with
  | @effects render shown =>
    show v.page.saveHistory v.storage render key = _
    rcases v.page.saveHistory_cases v.storage render with ⟨heq, -⟩ | ⟨own, hown, heq⟩
    · rw [heq]
    · rw [heq, Function.update_of_ne]
      rintro rfl
      exact hspares (.inl rfl) render shown hown
  | @clear render shown =>
    have hne := hspares (.inr rfl) render shown
    cases hkey : v.page.historyKey render with
    | none => rfl
    | some own =>
      refine Function.update_of_ne ?_ _ _
      rintro rfl
      exact hne hkey
  | openPage | signIn | render | sign | answer | certify | prove | failProof | retry => rfl

section Sparing

variable {Available : HistoryScope → Services → Prop} {key : List Char} {tab : Nat} {b b' : Browser}
  {event : Nat × SessionEvent}

/-- The other pages leave the page and what is stored under its key. -/
theorem SparingStep.other (h : SparingStep Available key tab b event b') (hne : event.1 ≠ tab) :
    b'.pages tab = b.pages tab ∧ b'.storage key = b.storage key := by
  obtain ⟨hspares, ⟨step⟩⟩ := h
  exact ⟨Browser.pages_put_of_ne b _ hne.symm, step.storage_eq (hspares hne)⟩

/-- Facts about a page and what is stored under its key, with the events of the page that are still to come: what each
of its own steps takes to the events after it holds at the end of a run. -/
theorem sparing_trace {P : List SessionEvent → Page → Option Json → Prop} {events : List (Nat × SessionEvent)}
    (hown : ∀ event rest v v', SessionStep Available v event v' → P (event :: rest) v.page (v.storage key) →
      P rest v'.page (v'.storage key))
    (h : Trace (SparingStep Available key tab) b events b')
    (hstart : P (ownEvents tab events) (b.pages tab) (b.storage key)) : P [] (b'.pages tab) (b'.storage key) := by
  induction h with
  | nil b => exact hstart
  | @cons b m b' event events head tail ih =>
    apply ih
    by_cases hevent : event.1 = tab
    · obtain ⟨-, ⟨step⟩⟩ := head
      obtain rfl := hevent
      simp only [ownEvents, List.filter_cons, decide_true, if_true, List.map_cons] at hstart
      rw [Browser.pages_put]
      exact hown _ _ _ _ step hstart
    · obtain ⟨hpage, hstorage⟩ := head.other hevent
      rw [hpage, hstorage]
      simpa only [ownEvents, List.filter_cons, hevent, decide_false, Bool.false_eq_true, if_false] using hstart

/-- A page that has a key for itself since it was opened has its history stored there. -/
theorem saved_trace {events : List (Nat × SessionEvent)} {scope : HistoryScope}
    (h : Trace (SparingStep Available key tab) b ((tab, .opened scope) :: events) b') :
    (b'.pages tab).Saved key (b'.storage key) := by
  obtain _ | ⟨⟨-, ⟨step⟩⟩, tail⟩ := h
  cases step
  refine (sparing_trace (P := fun _ page stored => page.Steady ∧ page.Saved key stored) ?_ tail ⟨?_, ?_⟩).2
  · rintro event _ v v' step ⟨hsteady, hsaved⟩
    exact ⟨hsteady.step step, hsaved.step hsteady step⟩
  · rw [Browser.pages_put]
    exact .new scope
  · rw [Browser.pages_put]
    rintro _ ⟨⟩

end Sparing

/-! ## A page that is opened again -/

/-- The events of a new page up to the history of a wallet: it renders and runs its effects until the wallet has signed
in. -/
def reopened (scope : HistoryScope) (account : List Char) (waiting : List SessionEvent) : List SessionEvent :=
  .opened scope :: (waiting ++ [.signedIn (some account), .rendered, .effectsRan])

/-- A page on which no wallet has been seen. -/
structure Page.Waiting (scope : HistoryScope) (page : Page) : Prop where
  scope : page.scope = scope
  loaded : page.loadedHistoryKey = none
  history : page.history = []
  settled : ∀ render ∈ page.settled, render.signedInAccountKey = none

/-- How far a new page has come, with its events that are still to come. -/
inductive Reopening (scope : HistoryScope) (account : List Char) (history : List SubmittedTransaction) :
    List SessionEvent → Page → Prop
  | closed {waiting : List SessionEvent} (hwaiting : ∀ event ∈ waiting, event = .rendered ∨ event = .effectsRan)
      {page : Page} : Reopening scope account history (reopened scope account waiting) page
  | waiting {waiting : List SessionEvent} (hwaiting : ∀ event ∈ waiting, event = .rendered ∨ event = .effectsRan)
      {page : Page} (h : page.Waiting scope) (hwallet : page.walletAccountKey = none)
      (hrendered : ∀ render ∈ page.rendered, render.signedInAccountKey = none ∧ render.history = []) :
    Reopening scope account history (waiting ++ [.signedIn (some account), .rendered, .effectsRan]) page
  | signedIn {page : Page} (h : page.Waiting scope) (hwallet : page.walletAccountKey = some account) :
    Reopening scope account history [.rendered, .effectsRan] page
  | rendered {page : Page} {version : Nat} (h : page.Waiting scope)
      (hrendered : page.rendered = some ⟨some account, none, version, []⟩) :
    Reopening scope account history [.effectsRan] page
  | loaded {page : Page} (hhistory : page.history = history)
      (hloaded : page.loadedHistoryKey = submittedTransactionHistoryKey scope (some account)) :
    Reopening scope account history [] page

/-- No proof of an empty history is fetched. -/
theorem Page.fetchProof_nil (page : Page) {render : Rendered} (h : render.history = []) : page.fetchProof render = page := by
  unfold Page.fetchProof
  rw [h]
  split
  · rfl
  · rfl

/-- The effects of a render without a wallet keep the page waiting, and store nothing. -/
theorem Page.Waiting.runEffects {scope : HistoryScope} {v : View} (h : v.page.Waiting scope) {render : Rendered}
    (hsigned : render.signedInAccountKey = none) (hhistory : render.history = []) :
    (v.runEffects render).page.Waiting scope ∧
      (v.runEffects render).page.walletAccountKey = v.page.walletAccountKey ∧
      (v.runEffects render).page.rendered = v.page.rendered ∧ (v.runEffects render).storage = v.storage := by
  have hkey : v.page.historyKey render = none := by
    rw [Page.historyKey, hsigned]
    rfl
  have heffects : (v.runEffects render).page =
      { v.page.loadHistory v.storage render with settled := some render } := by
    unfold View.runEffects
    rw [Page.fetchProof_nil _ hhistory]
  have hload : v.page.loadHistory v.storage render = v.page ∨
      v.page.loadHistory v.storage render = { v.page.setHistory [] with loadedHistoryKey := none } := by
    unfold Page.loadHistory
    split
    · exact .inl rfl
    · rw [hkey]
      exact .inr rfl
  have hsettled : ∀ r ∈ some render, r.signedInAccountKey = none := by
    rintro _ ⟨⟩
    exact hsigned
  have hstorage : (v.runEffects render).storage = v.storage := by
    show v.page.saveHistory v.storage render = v.storage
    rcases v.page.saveHistory_cases v.storage render with ⟨heq, -⟩ | ⟨own, hown, -⟩
    · exact heq
    · rw [hkey] at hown
      cases hown
  rw [heffects]
  rcases hload with hload | hload
  · rw [hload]
    exact ⟨⟨h.scope, h.loaded, h.history, hsettled⟩, rfl, rfl, hstorage⟩
  · rw [hload]
    exact ⟨⟨h.scope, rfl, rfl, hsettled⟩, rfl, rfl, hstorage⟩

/-- The effects of the first render with a wallet load its history, and store nothing. -/
theorem Page.Waiting.loadEffects {scope : HistoryScope} {v : View} (h : v.page.Waiting scope) {account key : List Char}
    (hkey : submittedTransactionHistoryKey scope (some account) = some key) (version : Nat) :
    (v.runEffects ⟨some account, none, version, []⟩).page.history = readHistory (v.storage key) ∧
      (v.runEffects ⟨some account, none, version, []⟩).page.loadedHistoryKey = some key ∧
      (v.runEffects ⟨some account, none, version, []⟩).storage = v.storage := by
  have hown : v.page.historyKey ⟨some account, none, version, []⟩ = some key := by
    rw [Page.historyKey, h.scope]
    exact hkey
  have hother : v.page.settled.map v.page.historyKey ≠ some (some key) := by
    intro heq
    obtain ⟨render, hrender, hrkey⟩ := Option.map_eq_some_iff.1 heq
    rw [Page.historyKey, h.settled render hrender] at hrkey
    cases hrkey
  have hload : v.page.loadHistory v.storage ⟨some account, none, version, []⟩ =
      { v.page.setHistory (readHistory (v.storage key)) with loadedHistoryKey := some key } := by
    unfold Page.loadHistory
    rw [hown, if_neg hother]
  refine ⟨?_, ?_, ?_⟩
  · unfold View.runEffects
    rw [Page.fetchProof_nil _ rfl, hload]
    rfl
  · unfold View.runEffects
    rw [Page.fetchProof_nil _ rfl, hload]
  · show v.page.saveHistory v.storage _ = v.storage
    unfold Page.saveHistory
    rw [hown]
    simp

/-- One event of the new page, with the history stored under the key of its wallet. -/
theorem Reopening.step {Available : HistoryScope → Services → Prop} {scope : HistoryScope} {account key : List Char}
    {stored : Option Json} (hkey : submittedTransactionHistoryKey scope (some account) = some key) {event : SessionEvent}
    {rest : List SessionEvent} {v v' : View} (hstep : SessionStep Available v event v')
    (h : Reopening scope account (readHistory stored) (event :: rest) v.page) (hstored : v.storage key = stored) :
    Reopening scope account (readHistory stored) rest v'.page ∧ v'.storage key = stored := by
  generalize hevents : event :: rest = events at h
  generalize hpage : v.page = page at h
  cases h with
  | closed hwaiting =>
    obtain ⟨rfl, rfl⟩ := List.cons.inj hevents
    cases hstep
    refine ⟨.waiting hwaiting ⟨rfl, rfl, rfl, ?_⟩ rfl ?_, hstored⟩
    · rintro _ ⟨⟩
    · rintro _ ⟨⟩
  | @waiting waiting hwaiting _ h hwallet hrendered =>
    subst hpage
    cases waiting with
    | nil =>
      obtain ⟨rfl, rfl⟩ := List.cons.inj hevents
      cases hstep
      exact ⟨.signedIn ⟨h.scope, h.loaded, h.history, h.settled⟩ rfl, hstored⟩
    | cons own waiting =>
      obtain ⟨rfl, rfl⟩ := List.cons.inj hevents
      rw [List.forall_mem_cons] at hwaiting
      rcases hwaiting.1 with rfl | rfl
      · cases hstep
        refine ⟨.waiting hwaiting.2 ⟨h.scope, h.loaded, h.history, h.settled⟩ hwallet ?_, hstored⟩
        rintro _ ⟨⟩
        exact ⟨hwallet, h.history⟩
      · cases hstep with
        | @effects render shown =>
          obtain ⟨hsigned, hhistory⟩ := hrendered render shown
          obtain ⟨hpage, hwallet', hrendered', hstorage⟩ := h.runEffects hsigned hhistory
          exact ⟨.waiting hwaiting.2 hpage (hwallet'.trans hwallet) (hrendered'.symm ▸ hrendered), hstorage ▸ hstored⟩
  | signedIn h hwallet =>
    subst hpage
    obtain ⟨rfl, rfl⟩ := List.cons.inj hevents
    cases hstep
    have hpicture : (⟨v.page.walletAccountKey, v.page.loadedHistoryKey, v.page.version, v.page.history⟩ : Rendered) =
        ⟨some account, none, v.page.version, []⟩ := by
      rw [hwallet, h.loaded, h.history]
    exact ⟨.rendered ⟨h.scope, h.loaded, h.history, h.settled⟩ (congrArg some hpicture), hstored⟩
  | @rendered _ version h hrendered =>
    subst hpage
    obtain ⟨rfl, rfl⟩ := List.cons.inj hevents
    cases hstep with
    | @effects render shown =>
      obtain rfl := Option.some.inj (hrendered.symm.trans shown)
      obtain ⟨hhistory, hloaded, hstorage⟩ := h.loadEffects hkey version
      rw [hstored] at hhistory
      exact ⟨.loaded hhistory (hloaded.trans hkey.symm), hstorage ▸ hstored⟩
  | loaded hhistory hloaded => cases hevents

theorem Reopening.loaded_of_nil {scope : HistoryScope} {account : List Char} {history : List SubmittedTransaction}
    {page : Page} (h : Reopening scope account history [] page) :
    page.history = history ∧ page.loadedHistoryKey = submittedTransactionHistoryKey scope (some account) := by
  generalize hevents : [] = events at h
  cases h with
  | loaded hhistory hloaded => exact ⟨hhistory, hloaded⟩
  | @waiting waiting => cases waiting <;> cases hevents
  | closed | signedIn | rendered => cases hevents

/-! ## What is kept -/

/-- The effects have seen the page as it is. -/
def Page.AtRest (page : Page) : Prop :=
  ∃ render ∈ page.settled, render.version = page.version ∧ render.signedInAccountKey = page.walletAccountKey ∧
    render.loadedHistoryKey = page.loadedHistoryKey

/-- A page that acts alone has its key for itself. -/
theorem sparing_of_page {Available : HistoryScope → Services → Prop} (key : List Char) {tab : Nat} {b b' : Browser}
    {events : List SessionEvent} (h : Trace (BrowserStep Available) b (events.map (tab, ·)) b') :
    Trace (SparingStep Available key tab) b (events.map (tab, ·)) b' := by
  refine h.imp_of_mem fun event hmem _ _ hstep => ⟨fun hne => ?_, hstep⟩
  obtain ⟨_, -, rfl⟩ := List.mem_map.1 hmem
  exact absurd rfl hne

/-- A page can be opened again, with the first render before the wallet signs in. -/
theorem exists_reopened {Available : HistoryScope → Services → Prop} (key : List Char) (tab : Nat) (b : Browser)
    (scope : HistoryScope) (account : List Char) : ∃ b', Trace (SparingStep Available key tab) b
      ((reopened scope account [.rendered, .effectsRan]).map (tab, ·)) b' := by
  have hpage : ∃ v, Trace (SessionStep Available) (b.view tab) (reopened scope account [.rendered, .effectsRan]) v :=
    ⟨_, .cons (.openPage scope) <| .cons (.render rfl) <| .cons (.effects rfl) <| .cons (.signIn (some account)) <|
      .cons (.render rfl) <| .cons (.effects rfl) <| .nil _⟩
  obtain ⟨v, hpage⟩ := hpage
  exact ⟨_, sparing_of_page key (trace_of_page b tab hpage rfl)⟩

section Runs

variable {Available : HistoryScope → Services → Prop} {scope : HistoryScope} {events : List (Nat × SessionEvent)} {b : Browser}
  (hrun : Trace (BrowserStep Available) (.new scope) events b)

include hrun

theorem running_trace : ∀ tab, (b.pages tab).Running :=
  forall_pages_trace (fun _ => List.forall_mem_nil _) (fun _ _ _ hstep h => h.step hstep) hrun

theorem steady_trace : ∀ tab, (b.pages tab).Steady :=
  forall_pages_trace Page.Steady.new (fun _ _ _ hstep h => h.step hstep) hrun

/-- In every page a proof that is shown as being fetched is being fetched or waits for a timer, also across changes of
the wallet. When the effects have seen a page as it is and a proof of its wallet is due, another one of the wallet is
being fetched or waits for a timer, and each way this ends leaves a history that the effects have not seen, so that
they run again. -/
theorem no_proof_forgotten (tab : Nat) :
    (∀ tx ∈ (b.pages tab).history, tx.proof.isFetching = true → (b.pages tab).Busy tx.digest) ∧
    ((b.pages tab).AtRest → ∀ tx ∈ (b.pages tab).history,
      shouldFetchTransactionProof tx (b.pages tab).walletAccountKey = true →
      ∃ tx' ∈ (b.pages tab).history, (b.pages tab).walletAccountKey = some tx'.sender ∧ (b.pages tab).Busy tx'.digest ∧
        ∀ event b', event.Ends tx'.digest → BrowserStep Available b (tab, event) b' → (b'.pages tab).Unseen) := by
  have hrunning := running_trace hrun tab
  have hsteady := steady_trace hrun tab
  refine ⟨hrunning, ?_⟩
  rintro ⟨render, hrender, hversion, hsigned, -⟩ tx htx hdue
  have hhistory := (hsteady.settled render hrender).2 hversion
  rcases hsteady.checked render hrender hversion with hfetching | hnone
  · rw [hhistory, hsigned] at hfetching
    obtain ⟨tx', htx', hboth⟩ := List.any_eq_true.1 hfetching
    obtain ⟨hsender, hproof⟩ := of_decide_eq_true hboth
    refine ⟨tx', htx', hsender, hrunning tx' htx' hproof, ?_⟩
    rintro event _ hends ⟨step⟩
    rw [Browser.pages_put]
    exact hsteady.unseen (step.newList_of_ends hends)
  · rw [hhistory, hsigned] at hnone
    rw [hnone tx htx] at hdue
    cases hdue

/-- The history of a wallet survives its page, if no other page stores one for the same wallet. When the effects have
seen the page as it is, its history is stored under the key of the wallet: a new page of the deployment, on which the
wallet signs in some time after the first render, shows the same transactions, each once, with proofs that were being
fetched or had failed to be fetched again. -/
theorem history_survives {b' : Browser} {tab : Nat} {opened : HistoryScope} {session : List (Nat × SessionEvent)}
    {account key : List Char} (hsession : Trace (SparingStep Available key tab) b ((tab, .opened opened) :: session) b')
    (hrest : (b'.pages tab).AtRest) (hwallet : (b'.pages tab).walletAccountKey = some account)
    (hkey : submittedTransactionHistoryKey (b'.pages tab).scope (some account) = some key) (next : Nat) :
    (∃ b'', Trace (SparingStep Available key next) b'
      ((reopened (b'.pages tab).scope account [.rendered, .effectsRan]).map (next, ·)) b'') ∧
    ∀ waiting reopening b'', (∀ event ∈ waiting, event = .rendered ∨ event = .effectsRan) →
      ownEvents next reopening = reopened (b'.pages tab).scope account waiting →
      Trace (SparingStep Available key next) b' reopening b'' →
        (b''.pages next).history = (b'.pages tab).history.map SubmittedTransaction.resumed ∧
        (b''.pages next).loadedHistoryKey = some key ∧
        ((b''.pages next).history.map SubmittedTransaction.digest).Nodup := by
  have hrun := hrun.append (hsession.imp fun _ _ _ hstep => hstep.2)
  have hsteady := steady_trace hrun tab
  obtain ⟨render, hrender, hversion, hsigned, hloaded⟩ := hrest
  have hown : (b'.pages tab).historyKey render = some key := by
    rw [Page.historyKey, hsigned, hwallet]
    exact hkey
  have hstored : b'.storage key = some (historyJson (b'.pages tab).history) := by
    rw [← (hsteady.settled render hrender).2 hversion]
    exact saved_trace hsession render hrender hversion hown (hloaded.trans ((hsteady.loaded render hrender).trans hown))
  -- no meaning of the marks is needed here
  have hproves : Proves (fun _ => ⟨fun _ => True, fun _ => True⟩) Available :=
    ⟨fun _ _ _ _ _ _ => trivial, fun _ _ _ _ _ _ _ => ⟨trivial, trivial⟩⟩
  have hgood := (sound_trace hproves hrun tab).page
  have hread : readHistory (b'.storage key) = (b'.pages tab).history.map SubmittedTransaction.resumed := by
    rw [hstored]
    exact readHistory_json hgood.valid
  refine ⟨exists_reopened key next b' _ account, ?_⟩
  intro waiting reopening b'' hwaiting hevents hreopening
  obtain ⟨hdone, -⟩ := sparing_trace
    (P := fun rest page stored => Reopening (b'.pages tab).scope account (readHistory (b'.storage key)) rest page ∧
      stored = b'.storage key)
    (fun event rest v v' hstep h => Reopening.step hkey hstep h.1 h.2) hreopening ⟨hevents ▸ .closed hwaiting, rfl⟩
  obtain ⟨hhistory, hloaded⟩ := hdone.loaded_of_nil
  rw [hhistory, hread]
  exact ⟨rfl, hloaded.trans hkey, hgood.resumed.nodup⟩

end Runs

theorem walletPage_atRest : walletPage.AtRest := ⟨walletRendered, rfl, rfl, rfl, rfl⟩

theorem no_proof_forgotten_sample : ∃ b : Browser,
    Trace (BrowserStep WalletServices) (.new walletScope) (walletEvents.map (0, ·)) b ∧
      (∃ tx ∈ (b.pages 0).history, tx.proof.isFetching = true ∧ (b.pages 0).Busy tx.digest) ∧
      ∃ tx ∈ (b.pages 0).history, shouldFetchTransactionProof tx (b.pages 0).walletAccountKey = true ∧
        ∃ tx' ∈ (b.pages 0).history, (b.pages 0).Busy tx'.digest ∧
          ∀ event b', event.Ends tx'.digest → BrowserStep WalletServices b (0, event) b' → (b'.pages 0).Unseen := by
  obtain ⟨b, hpage, hrun⟩ := exists_walletRun
  obtain ⟨hbusy, hdue⟩ := no_proof_forgotten hrun 0
  refine ⟨b, hrun, ?_⟩
  rw [hpage] at hbusy hdue ⊢
  refine ⟨⟨_, List.mem_cons_self, rfl, hbusy _ List.mem_cons_self rfl⟩, _, List.mem_cons_of_mem _ List.mem_cons_self,
    by decide, ?_⟩
  obtain ⟨tx', htx', -, hbusy', hends⟩ :=
    hdue walletPage_atRest _ (List.mem_cons_of_mem _ List.mem_cons_self) (by decide)
  exact ⟨tx', htx', hbusy', hends⟩

theorem history_survives_sample : ∃ (key : List Char) (b b' : Browser),
    Trace (SparingStep WalletServices key 0) (.new walletScope) (walletEvents.map (0, ·)) b ∧
    Trace (SparingStep WalletServices key 1) b ((reopened walletScope walletAccount [.rendered, .effectsRan]).map (1, ·)) b' ∧
      (b'.pages 1).history.map SubmittedTransaction.digest = [lightDigestText, otherDigestText] := by
  obtain ⟨b, hpage, hrun⟩ := exists_walletRun
  obtain ⟨key, hkey⟩ : ∃ key, submittedTransactionHistoryKey walletScope (some walletAccount) = some key := ⟨_, rfl⟩
  have hsession := sparing_of_page key hrun
  have hwallet : (b.pages 0).walletAccountKey = some walletAccount := by
    rw [hpage]
    rfl
  obtain ⟨⟨b', hreopening⟩, hshown⟩ := history_survives (.nil _) hsession (hpage ▸ walletPage_atRest) hwallet
    (by rw [hpage]; exact hkey) 1
  rw [hpage] at hreopening hshown
  obtain ⟨hhistory, -⟩ := hshown [.rendered, .effectsRan] _ b' (by simp) (by simp [ownEvents, reopened]) hreopening
  refine ⟨key, b, b', hsession, hreopening, ?_⟩
  rw [hhistory]
  rfl

end Constantinople.Explorer.App
