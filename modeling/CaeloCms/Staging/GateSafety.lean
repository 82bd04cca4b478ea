import CaeloCms.Staging.Gate

/-!
# Whom the staging gate lets in

Tokens are signed and credentials rotated in any order; a request presents secrets that were handed out, with anything else
in it made up.  It is let in exactly for what `Enters` says, and a secret serves the purpose it was issued for only
(`decideStagingAccess_iff`).
-/

namespace CaeloCms.Staging

open CaeloCms.Redirect (natText)
open CaeloCms.Web (utf8)
open IdealMac (Unforged)

/-! ### Comparing -/

theorem utf8_injective {a b : List Char} (h : utf8 a = utf8 b) : a = b := by
  have hbytes : a.flatMap String.utf8EncodeChar = b.flatMap String.utf8EncodeChar := by
    unfold utf8 at h
    rw [← List.map_flatMap, ← List.map_flatMap] at h
    exact List.map_injective_iff.2 (fun x y hxy => UInt8.toNat_inj.1 hxy) h
  have hencode : a.utf8Encode = b.utf8Encode := congrArg List.toByteArray hbytes
  rw [← String.toByteArray_ofList, ← String.toByteArray_ofList, String.toByteArray_inj] at hencode
  exact String.ofList_injective hencode

theorem foldl_xor_eq_zero : ∀ {x y : List Nat} {diff : Nat}, x.length = y.length →
    ((x.zip y).foldl (fun diff p => diff ||| (p.1 ^^^ p.2)) diff = 0 ↔ diff = 0 ∧ x = y) := by
  intro x
  induction x with
  | nil =>
    intro y diff hlen
    obtain rfl := List.length_eq_zero_iff.1 hlen.symm
    simp
  | cons a x ih =>
    intro y diff hlen
    cases y with
    | nil => cases hlen
    | cons b y =>
      rw [List.zip_cons_cons, List.foldl_cons, ih (by simpa using hlen), Nat.or_eq_zero_iff, Nat.xor_eq_zero_iff,
        List.cons.injEq, and_assoc]

theorem constantTimeEqual_iff {a b : List Char} : constantTimeEqual a b = true ↔ a = b := by
  unfold constantTimeEqual
  dsimp only
  rw [beq_iff_eq]
  by_cases hlen : (utf8 a).length = (utf8 b).length
  · rw [if_pos hlen, if_pos hlen, foldl_xor_eq_zero hlen]
    exact ⟨fun h => utf8_injective h.2, fun h => ⟨rfl, congrArg utf8 h⟩⟩
  · rw [if_neg hlen, if_neg hlen, foldl_xor_eq_zero rfl]
    refine ⟨fun h => absurd h.1 (by decide), fun h => absurd (congrArg List.length (congrArg utf8 h)) hlen⟩

/-! ### Numbers -/

theorem natText_injective {m n : Nat} (h : natText m = natText n) : m = n := by
  have hm : Nat.ofDigitChars 10 (natText m) 0 = m := Nat.ofDigitChars_ten_toDigits
  have hn : Nat.ofDigitChars 10 (natText n) 0 = n := Nat.ofDigitChars_ten_toDigits
  rw [← hm, h, hn]

theorem isDigit_of_mem_natText {n : Nat} {c : Char} (h : c ∈ natText n) : c.isDigit = true :=
  Nat.isDigit_of_mem_toDigits (by omega) (by omega) h

theorem intText_injective {m n : Int} (h : intText m = intText n) : m = n := by
  have hsign : ∀ k l : Nat, '-' :: natText k ≠ natText l := by
    intro k l heq
    have hminus : '-' ∈ natText l := heq ▸ List.mem_cons_self
    exact absurd (isDigit_of_mem_natText hminus) (by decide)
  unfold intText at h
  split at h <;> split at h
  · have := natText_injective (List.cons.inj h).2
    omega
  · exact absurd h (hsign _ _)
  · exact absurd h.symm (hsign _ _)
  · have := natText_injective h
    omega

theorem colon_not_mem_intText (n : Int) : ':' ∉ intText n := by
  intro h
  unfold intText at h
  split at h
  · rcases List.mem_cons.1 h with h | h
    · exact absurd h (by decide)
    · exact absurd (isDigit_of_mem_natText h) (by decide)
  · exact absurd (isDigit_of_mem_natText h) (by decide)

/-! ### What is issued -/

/-- A secret that was handed out. -/
inductive Issued
  | open_ (exp : Int)
  | session (exp : Int)
  | run (purpose : StagingRunPurpose) (runId : List Char) (exp : Int)
  | credential (kind : CredentialKind) (nonce : List Char)
deriving DecidableEq, Repr

def Issued.message : Issued → List Char
  | .open_ exp => tokenMessage .open_ exp
  | .session exp => tokenMessage .session exp
  | .run purpose runId exp => runMessage purpose runId exp
  | .credential kind nonce => credentialMessage kind nonce

def Issued.form : Issued → MacForm
  | .credential _ _ => .short
  | _ => .whole

/-- The part of a token, or the credential, that only the key's holder can make. -/
def Issued.secret (secret : GateSecret) (i : Issued) : List Char := secret.tag i.form i.message

def Issued.Plain : Issued → Prop
  | .run _ runId _ => isRunId runId = true
  | _ => True

theorem colon_not_mem_runId {runId : List Char} (h : isRunId runId = true) : ':' ∉ runId := by
  intro hc
  unfold isRunId at h
  rw [Bool.and_eq_true, List.all_eq_true] at h
  exact absurd (h.2 ':' hc) (by decide)

theorem split_tokenMessage (purpose : TokenPurpose) (exp : Int) :
    (tokenMessage purpose exp).splitOn ':' = ["caelo-staging".toList, purpose.text, intText exp] := by
  unfold tokenMessage
  rw [List.splitOn_append_cons_self, List.splitOn_eq_singleton (colon_not_mem_intText exp)]
  cases purpose <;> rfl

theorem split_runMessage (purpose : StagingRunPurpose) {runId : List Char} (h : isRunId runId = true) (exp : Int) :
    (runMessage purpose runId exp).splitOn ':' = ["caelo-staging-run".toList, purpose.text, runId, intText exp] := by
  unfold runMessage
  rw [List.splitOn_append_cons_self, List.splitOn_append_cons_self, List.splitOn_eq_singleton (colon_not_mem_runId h),
    List.splitOn_eq_singleton (colon_not_mem_intText exp)]
  cases purpose <;> rfl

inductive MessageArea
  | token
  | run
  | credential
deriving DecidableEq

def MessageArea.text : MessageArea → List Char
  | .token => "caelo-staging".toList
  | .run => "caelo-staging-run".toList
  | .credential => "caelo-staging-credential".toList

def Issued.area : Issued → MessageArea
  | .open_ _ => .token
  | .session _ => .token
  | .run _ _ _ => .run
  | .credential _ _ => .credential

theorem takeWhile_colon {s : List Char} (h : s.all (fun c => c != ':') = true) (rest : List Char) :
    (s ++ [':'] ++ rest).takeWhile (fun c => c != ':') = s := by
  rw [List.append_assoc, List.takeWhile_append_of_pos (by simpa using h)]
  simp

theorem tokenMessage_eq (purpose : TokenPurpose) (exp : Int) :
    tokenMessage purpose exp = MessageArea.token.text ++ [':'] ++ (purpose.text ++ ':' :: intText exp) := by
  have harea : "caelo-staging:".toList = MessageArea.token.text ++ [':'] := by decide
  unfold tokenMessage
  rw [harea, List.append_assoc]

theorem runMessage_eq (purpose : StagingRunPurpose) (runId : List Char) (exp : Int) :
    runMessage purpose runId exp =
      MessageArea.run.text ++ [':'] ++ (purpose.text ++ ':' :: (runId ++ ':' :: intText exp)) := by
  have harea : "caelo-staging-run:".toList = MessageArea.run.text ++ [':'] := by decide
  unfold runMessage
  rw [harea, List.append_assoc]

theorem credentialMessage_eq (kind : CredentialKind) (nonce : List Char) :
    credentialMessage kind nonce = MessageArea.credential.text ++ [':'] ++ (kind.text ++ ':' :: nonce) := by
  have harea : "caelo-staging-credential:".toList = MessageArea.credential.text ++ [':'] := by decide
  unfold credentialMessage
  rw [harea, List.append_assoc]

theorem takeWhile_message (i : Issued) : i.message.takeWhile (fun c => c != ':') = i.area.text := by
  have hclean : ∀ a : MessageArea, a.text.all (fun c => c != ':') = true := by
    intro a
    cases a <;> decide
  cases i with
  | open_ exp => exact (congrArg _ (tokenMessage_eq .open_ exp)).trans (takeWhile_colon (hclean .token) _)
  | session exp => exact (congrArg _ (tokenMessage_eq .session exp)).trans (takeWhile_colon (hclean .token) _)
  | run purpose runId exp => exact (congrArg _ (runMessage_eq purpose runId exp)).trans (takeWhile_colon (hclean .run) _)
  | credential kind nonce =>
    exact (congrArg _ (credentialMessage_eq kind nonce)).trans (takeWhile_colon (hclean .credential) _)

theorem area_eq_of_message {i j : Issued} (h : i.message = j.message) : i.area = j.area := by
  have htext : ∀ a b : MessageArea, a.text = b.text → a = b := by
    intro a b
    cases a <;> cases b <;> decide
  refine htext _ _ ?_
  rw [← takeWhile_message, ← takeWhile_message, h]

theorem credentialMessage_injective {kind kind' : CredentialKind} {nonce nonce' : List Char}
    (h : credentialMessage kind nonce = credentialMessage kind' nonce') : kind = kind' ∧ nonce = nonce' := by
  rw [credentialMessage_eq, credentialMessage_eq] at h
  have htext := List.append_cancel_left h
  rw [List.append_cons, List.append_cons kind'.text] at htext
  have hclean : ∀ k : CredentialKind, k.text.all (fun c => c != ':') = true := by
    intro k
    cases k <;> decide
  have hkinds : ∀ k k' : CredentialKind, k.text = k'.text → k = k' := by
    intro k k'
    cases k <;> cases k' <;> decide
  have hwhile := congrArg (List.takeWhile fun c => c != ':') htext
  rw [takeWhile_colon (hclean kind), takeWhile_colon (hclean kind')] at hwhile
  obtain rfl := hkinds kind kind' hwhile
  exact ⟨rfl, List.append_cancel_left htext⟩

/-- The messages of different purposes are different, and so are those of one purpose. -/
theorem Issued.message_injective {i j : Issued} (hi : i.Plain) (hj : j.Plain) (h : i.message = j.message) : i = j := by
  have harea := area_eq_of_message h
  have hsplit := congrArg (List.splitOn ':') h
  cases i with
  | open_ exp =>
    cases j with
    | open_ exp' =>
      simp only [Issued.message, split_tokenMessage] at hsplit
      obtain rfl : exp = exp' := intText_injective (by simpa using hsplit)
      rfl
    | session exp' =>
      simp only [Issued.message, split_tokenMessage] at hsplit
      simp [TokenPurpose.text] at hsplit
    | run purpose' runId' exp' => cases harea
    | credential kind' nonce' => cases harea
  | session exp =>
    cases j with
    | open_ exp' =>
      simp only [Issued.message, split_tokenMessage] at hsplit
      simp [TokenPurpose.text] at hsplit
    | session exp' =>
      simp only [Issued.message, split_tokenMessage] at hsplit
      obtain rfl : exp = exp' := intText_injective (by simpa using hsplit)
      rfl
    | run purpose' runId' exp' => cases harea
    | credential kind' nonce' => cases harea
  | run purpose runId exp =>
    cases j with
    | open_ exp' => cases harea
    | session exp' => cases harea
    | run purpose' runId' exp' =>
      simp only [Issued.message, split_runMessage _ hi, split_runMessage _ hj] at hsplit
      obtain ⟨hpurpose, hrun, hexp⟩ : purpose.text = purpose'.text ∧ runId = runId' ∧ intText exp = intText exp' := by
        simpa using hsplit
      rw [hrun, intText_injective hexp]
      cases purpose <;> cases purpose' <;> first | rfl | exact absurd hpurpose (by decide)
    | credential kind' nonce' => cases harea
  | credential kind nonce =>
    cases j with
    | open_ exp' => cases harea
    | session exp' => cases harea
    | run purpose' runId' exp' => cases harea
    | credential kind' nonce' =>
      obtain ⟨rfl, rfl⟩ := credentialMessage_injective h
      rfl

theorem Issued.secret_injective {secret : GateSecret} {i j : Issued} (hi : i.Plain) (hj : j.Plain)
    (h : i.secret secret = j.secret secret) : i = j :=
  message_injective hi hj (secret.injective h).2

/-! ### Histories -/

structure GateWorld where
  settings : StagingAccessSettings
  issued : List Issued

def StagingAccessSettings.nonce (settings : StagingAccessSettings) : CredentialKind → Option (List Char)
  | .basicAuth => settings.basicAuthNonce
  | .header => settings.headerNonce

def StagingAccessSettings.withNonce (settings : StagingAccessSettings) (nonce : List Char) :
    CredentialKind → StagingAccessSettings
  | .basicAuth => { settings with basicAuthNonce := some nonce }
  | .header => { settings with headerNonce := some nonce }

/-- What the admin and the gateway do: they sign tokens, rotate credentials (and show them), and save the other settings. -/
inductive GateWorld.Step (secret : GateSecret) (w : GateWorld) : GateWorld → Prop
  | open_ (exp : Int) : Step secret w { w with issued := .open_ exp :: w.issued }
  | session (exp : Int) : Step secret w { w with issued := .session exp :: w.issued }
  | run (purpose : StagingRunPurpose) (runId : List Char) (exp nowSeconds : Int) (token : List Char)
      (h : signStagingRunToken secret purpose runId exp nowSeconds = .ok token) :
      Step secret w { w with issued := .run purpose runId exp :: w.issued }
  | rotate (kind : CredentialKind) (nonce : List Char) (h : nonce ≠ []) :
      Step secret w { settings := w.settings.withNonce nonce kind, issued := .credential kind nonce :: w.issued }
  | configure (settings : StagingAccessSettings) (h : ∀ kind, settings.nonce kind = w.settings.nonce kind) :
      Step secret w { w with settings := settings }

inductive GateWorld.Reachable (secret : GateSecret) : GateWorld → Prop
  | init (settings : StagingAccessSettings) (h : ∀ kind, settings.nonce kind = none) : Reachable secret ⟨settings, []⟩
  | step {w w' : GateWorld} (h : Reachable secret w) (hstep : GateWorld.Step secret w w') : Reachable secret w'

/-- What holds of every world that a history leads to. -/
structure GateWorld.Inv (w : GateWorld) : Prop where
  plain : ∀ i ∈ w.issued, i.Plain
  current : ∀ kind nonce, w.settings.nonce kind = some nonce → nonce ≠ [] ∧ .credential kind nonce ∈ w.issued

section History

variable {secret : GateSecret} {w w' : GateWorld}

theorem GateWorld.Inv.issue (h : w.Inv) {i : Issued} (hi : i.Plain) : ({ w with issued := i :: w.issued } : GateWorld).Inv := by
  refine ⟨fun j hj => ?_, fun kind nonce hnonce => ?_⟩
  · rcases List.mem_cons.1 hj with rfl | hj
    · exact hi
    · exact h.plain j hj
  · obtain ⟨hne, hmem⟩ := h.current kind nonce hnonce
    exact ⟨hne, List.mem_cons_of_mem _ hmem⟩

theorem nonce_withNonce (settings : StagingAccessSettings) (nonce : List Char) (kind kind' : CredentialKind) :
    (settings.withNonce nonce kind).nonce kind' = if kind' = kind then some nonce else settings.nonce kind' := by
  cases kind <;> cases kind' <;> rfl

theorem isRunId_of_sign {purpose : StagingRunPurpose} {runId token : List Char} {exp nowSeconds : Int}
    (h : signStagingRunToken secret purpose runId exp nowSeconds = .ok token) : isRunId runId = true := by
  unfold signStagingRunToken at h
  split at h
  · cases h
  · rename_i hid
    simpa using hid

theorem GateWorld.Step.inv (hstep : Step secret w w') (h : w.Inv) : w'.Inv := by
  cases hstep with
  | open_ exp => exact h.issue trivial
  | session exp => exact h.issue trivial
  | run purpose runId exp nowSeconds token hsign => exact h.issue (isRunId_of_sign hsign)
  | rotate kind nonce hne =>
    have hplain : (Issued.credential kind nonce).Plain := trivial
    refine ⟨(h.issue hplain).plain, fun kind' nonce' hnonce => ?_⟩
    dsimp only at hnonce
    rw [nonce_withNonce] at hnonce
    split at hnonce
    · rename_i hkind
      cases hnonce
      subst hkind
      exact ⟨hne, List.mem_cons_self⟩
    · obtain ⟨hne', hmem⟩ := h.current kind' nonce' hnonce
      exact ⟨hne', List.mem_cons_of_mem _ hmem⟩
  | configure settings hsame =>
    refine ⟨h.plain, fun kind nonce hnonce => ?_⟩
    dsimp only at hnonce
    rw [hsame] at hnonce
    exact h.current kind nonce hnonce

theorem GateWorld.Reachable.inv (h : Reachable secret w) : w.Inv := by
  induction h with
  | init settings hnone =>
    refine ⟨fun i hi => absurd hi List.not_mem_nil, fun kind nonce hnonce => ?_⟩
    dsimp only at hnonce
    rw [hnone] at hnonce
    cases hnonce
  | step _ hstep ih => exact hstep.inv ih

end History

/-! ### What lets a request in -/

def Spelled (first : List (List Char)) (exp : Int) (tag token : List Char) : Prop :=
  ∃ digits, isExpiry digits = true ∧ (digitsNumber digits : Int) = exp ∧ token.splitOn '.' = first ++ [digits, tag]

section Request

variable (secret : GateSecret) (w : GateWorld) (request : StagingAccessRequest) (nowSeconds : Int)

def Enters : StagingAccessMode → Prop
  | .cookie => w.settings.cookieEnabled = true ∧ ∃ exp token, .session exp ∈ w.issued ∧ nowSeconds < exp ∧
      stagingEntry request.cookieHeader nowSeconds = some token ∧
        Spelled ["session".toList] exp ((Issued.session exp).secret secret) token
  | .basicAuth => w.settings.basicAuthEnabled = true ∧ ∃ nonce, w.settings.basicAuthNonce = some nonce ∧
      parseBasicAuthorization request.authorizationHeader =
        some ⟨w.settings.basicAuthUser, deriveStagingCredential secret .basicAuth nonce⟩
  | .header => w.settings.headerEnabled = true ∧ ∃ nonce, w.settings.headerNonce = some nonce ∧
      request.header w.settings.headerName = some (deriveStagingCredential secret .header nonce)
  | .ip => ∃ ip, request.clientIp = some ip ∧ ∃ cidr ∈ w.settings.ipAllowlist, ipMatchesCidr ip cidr = true
  | .runToken => ∃ runId exp token, .run .capture runId exp ∈ w.issued ∧ nowSeconds < exp ∧
      exp ≤ nowSeconds + stagingRunTokenMaxTtlSeconds ∧ request.header stagingRunTokenHeader = some token ∧
        Spelled ["run".toList, "capture".toList, runId] exp ((Issued.run .capture runId exp).secret secret) token

def lastPart (token : List Char) : List Char := ((token.splitOn '.').getLast?).getD []

def presented : StagingAccessMode → List (List Char)
  | .cookie => ((stagingEntry request.cookieHeader nowSeconds).map lastPart).toList
  | .basicAuth => ((parseBasicAuthorization request.authorizationHeader).map (·.password)).toList
  | .header => (request.header w.settings.headerName).toList
  | .ip => []
  | .runToken => ((request.header stagingRunTokenHeader).map lastPart).toList

def accessModes : List StagingAccessMode := [.cookie, .basicAuth, .header, .ip, .runToken]

/-- A request made of what was issued, and of anything that is no tag. -/
def Assembled : Prop :=
  Unforged secret.toIdealMac (w.issued.map (·.message)) (accessModes.flatMap (presented w request nowSeconds))

end Request

def Issued.Opens (settings : StagingAccessSettings) (nowSeconds : Int) : Issued → StagingAccessMode → Prop
  | .session exp, .cookie => nowSeconds < exp
  | .credential .basicAuth nonce, .basicAuth => settings.basicAuthNonce = some nonce
  | .credential .header nonce, .header => settings.headerNonce = some nonce
  | .run .capture _ exp, .runToken => nowSeconds < exp ∧ exp ≤ nowSeconds + stagingRunTokenMaxTtlSeconds
  | _, _ => False

section Safety

variable {secret : GateSecret} {w : GateWorld} {request : StagingAccessRequest} {nowSeconds : Int}

theorem lastPart_of_spelled {first : List (List Char)} {exp : Int} {tag token : List Char}
    (h : Spelled first exp tag token) : lastPart token = tag := by
  obtain ⟨digits, -, -, hsplit⟩ := h
  unfold lastPart
  rw [hsplit, List.append_cons first, List.getLast?_append]
  rfl

theorem ne_nil_of_spelled {first : List (List Char)} {exp : Int} {tag token : List Char}
    (h : Spelled first exp tag token) : token ≠ [] := by
  rintro rfl
  obtain ⟨digits, -, -, hsplit⟩ := h
  have hlen := congrArg List.length hsplit
  rw [List.splitOn_nil, List.length_append] at hlen
  simp only [List.length_cons, List.length_nil] at hlen
  omega

theorem verifyStagingToken_iff {token : List Char} {purpose : TokenPurpose} :
    verifyStagingToken secret token purpose nowSeconds = true ↔ ∃ exp, nowSeconds < exp ∧
      Spelled [purpose.text] exp (secret.tag .whole (tokenMessage purpose exp)) token := by
  unfold verifyStagingToken
  constructor
  · intro h
    split at h
    · rename_i p expRaw mac hsplit
      split at h
      · cases h
      rename_i hform
      obtain ⟨hp, hexp⟩ := not_or.1 hform
      dsimp only at h
      rw [Bool.and_eq_true, constantTimeEqual_iff, decide_eq_true_eq] at h
      refine ⟨_, h.2, expRaw, by simpa using hexp, rfl, ?_⟩
      rw [hsplit, h.1, not_not.1 hp]
      rfl
    · cases h
  · rintro ⟨exp, hnow, digits, hdigits, rfl, hsplit⟩
    rw [hsplit]
    dsimp only [List.cons_append, List.nil_append]
    rw [if_neg (by simp [hdigits]), Bool.and_eq_true, constantTimeEqual_iff, decide_eq_true_eq]
    exact ⟨rfl, hnow⟩

theorem runPurposeOf_eq {s : List Char} {purpose : StagingRunPurpose} :
    runPurposeOf s = some purpose ↔ s = purpose.text := by
  have htexts : "capture".toList ≠ "check".toList := by decide
  unfold runPurposeOf
  constructor
  · intro h
    split at h
    · rename_i hs
      cases h
      exact hs
    · split at h
      · rename_i hs
        cases h
        exact hs
      · cases h
  · rintro rfl
    cases purpose with
    | capture => rw [StagingRunPurpose.text, if_pos rfl]
    | check => rw [StagingRunPurpose.text, if_neg htexts.symm, if_pos rfl]

theorem verifyStagingRunToken_iff {token runId : List Char} {purpose : StagingRunPurpose} :
    verifyStagingRunToken secret token nowSeconds = some (purpose, runId) ↔ isRunId runId = true ∧ ∃ exp, nowSeconds < exp ∧
      exp ≤ nowSeconds + stagingRunTokenMaxTtlSeconds ∧
        Spelled ["run".toList, purpose.text, runId] exp (secret.tag .whole (runMessage purpose runId exp)) token := by
  unfold verifyStagingRunToken
  constructor
  · intro h
    split at h
    · rename_i tag purposeRaw runId' expRaw mac hsplit
      split at h
      · cases h
      rename_i htag
      obtain ⟨purpose', hpurpose, h⟩ := Option.bind_eq_some_iff.1 h
      split at h
      · cases h
      rename_i hform
      obtain ⟨hrunId, hexp⟩ := not_or.1 hform
      dsimp only at h
      split at h
      · cases h
      rename_i hvalid
      obtain ⟨hmac, hvalid⟩ := not_or.1 hvalid
      obtain ⟨hnow, hmax⟩ := not_or.1 hvalid
      cases h
      refine ⟨by simpa using hrunId, _, by omega, by omega, expRaw, by simpa using hexp, rfl, ?_⟩
      have hmac : constantTimeEqual mac (secret.tag .whole (runMessage purpose runId (digitsNumber expRaw))) = true := by
        simpa using hmac
      rw [hsplit, not_not.1 htag, runPurposeOf_eq.1 hpurpose, constantTimeEqual_iff.1 hmac]
      rfl
    · cases h
  · rintro ⟨hrunId, exp, hnow, hmax, digits, hdigits, rfl, hsplit⟩
    rw [hsplit]
    dsimp only [List.cons_append, List.nil_append]
    rw [if_neg (by simp), runPurposeOf_eq.2 rfl, Option.bind_some, if_neg (by simp [hrunId, hdigits]),
      constantTimeEqual_iff.2 rfl, if_neg]
    rintro (h | h | h)
    · cases h
    · omega
    · omega

theorem Assembled.issued (h : Assembled secret w request nowSeconds) {mode : StagingAccessMode} (hmode : mode ∈ accessModes)
    {t : List Char} (ht : t ∈ presented w request nowSeconds mode) {f : MacForm} {m : List Char}
    (htag : t = secret.tag f m) : ∃ i ∈ w.issued, i.message = m := by
  have hin : t ∈ accessModes.flatMap (presented w request nowSeconds) := List.mem_flatMap.2 ⟨mode, hmode, ht⟩
  exact List.mem_map.1 (Unforged.of_mem h hin htag)

theorem usable_eq_some {nonce : Option (List Char)} {n : List Char} : usable nonce = some n ↔ nonce = some n ∧ n ≠ [] := by
  unfold usable
  rw [Option.filter_eq_some_iff]
  simp

theorem cookieGranted_iff (hinv : w.Inv) (h : Assembled secret w request nowSeconds) :
    cookieGranted w.settings secret request nowSeconds = true ↔ Enters secret w request nowSeconds .cookie := by
  unfold cookieGranted
  rw [Bool.and_eq_true, Option.any_eq_true]
  refine and_congr_right fun _ => ?_
  constructor
  · rintro ⟨token, htoken, hvalid⟩
    obtain ⟨exp, hnow, hspelled⟩ := verifyStagingToken_iff.1 (Bool.and_eq_true _ _ ▸ hvalid).2
    have hpresented : lastPart token ∈ presented w request nowSeconds .cookie := by
      unfold presented
      rw [htoken]
      exact List.mem_singleton_self _
    obtain ⟨i, hi, hmessage⟩ := h.issued (by decide) hpresented (lastPart_of_spelled hspelled)
    obtain rfl : i = .session exp := Issued.message_injective (hinv.plain i hi) trivial hmessage
    exact ⟨exp, token, hi, hnow, htoken, hspelled⟩
  · rintro ⟨exp, token, -, hnow, htoken, hspelled⟩
    refine ⟨token, htoken, ?_⟩
    have hne := ne_nil_of_spelled hspelled
    rw [Bool.and_eq_true]
    exact ⟨by simpa using hne, verifyStagingToken_iff.2 ⟨exp, hnow, hspelled⟩⟩

theorem basicAuthGranted_iff (hinv : w.Inv) :
    basicAuthGranted w.settings secret request = true ↔ Enters secret w request nowSeconds .basicAuth := by
  unfold basicAuthGranted
  rw [Bool.and_eq_true, Option.any_eq_true]
  refine and_congr_right fun _ => ?_
  constructor
  · rintro ⟨nonce, hnonce, hlogin⟩
    dsimp only at hlogin
    rw [Bool.and_eq_true, Bool.and_eq_true, constantTimeEqual_iff, constantTimeEqual_iff] at hlogin
    obtain ⟨⟨hsome, huser⟩, hpassword⟩ := hlogin
    obtain ⟨login, hparse⟩ := Option.isSome_iff_exists.1 hsome
    rw [hparse] at huser hpassword
    refine ⟨nonce, (usable_eq_some.1 hnonce).1, hparse.trans ?_⟩
    cases login
    exact congrArg some (BasicLogin.mk.injEq .. ▸ ⟨huser, hpassword⟩)
  · rintro ⟨nonce, hnonce, hparse⟩
    refine ⟨nonce, usable_eq_some.2 ⟨hnonce, (hinv.current .basicAuth nonce hnonce).1⟩, ?_⟩
    dsimp only
    rw [hparse, Bool.and_eq_true, Bool.and_eq_true, constantTimeEqual_iff, constantTimeEqual_iff]
    exact ⟨⟨rfl, rfl⟩, rfl⟩

theorem headerGranted_iff (hinv : w.Inv) :
    headerGranted w.settings secret request = true ↔ Enters secret w request nowSeconds .header := by
  unfold headerGranted
  rw [Bool.and_eq_true, Option.any_eq_true]
  refine and_congr_right fun _ => ?_
  constructor
  · rintro ⟨nonce, hnonce, hvalue⟩
    dsimp only at hvalue
    rw [Bool.and_eq_true, constantTimeEqual_iff] at hvalue
    refine ⟨nonce, (usable_eq_some.1 hnonce).1, ?_⟩
    cases hheader : request.header w.settings.headerName with
    | none =>
      rw [hheader] at hvalue
      exact absurd hvalue.2 (by simp)
    | some value =>
      rw [hheader] at hvalue
      exact congrArg some hvalue.1
  · rintro ⟨nonce, hnonce, hheader⟩
    refine ⟨nonce, usable_eq_some.2 ⟨hnonce, (hinv.current .header nonce hnonce).1⟩, ?_⟩
    dsimp only
    rw [hheader, Bool.and_eq_true, constantTimeEqual_iff]
    have hne := secret.nonempty .short (credentialMessage .header nonce)
    exact ⟨rfl, by simpa [deriveStagingCredential] using hne⟩

theorem ipGranted_iff : ipGranted w.settings request = true ↔ Enters secret w request nowSeconds .ip := by
  unfold ipGranted
  rw [Option.any_eq_true]
  constructor
  · rintro ⟨ip, hip, hmatch⟩
    rw [Bool.and_eq_true, List.any_eq_true] at hmatch
    exact ⟨ip, hip, hmatch.2⟩
  · rintro ⟨ip, hip, hmatch⟩
    refine ⟨ip, hip, ?_⟩
    rw [Bool.and_eq_true, List.any_eq_true]
    refine ⟨?_, hmatch⟩
    obtain ⟨cidr, -, hcidr⟩ := hmatch
    cases ip with
    | nil =>
      have hnone : parseIp [] = none := by decide
      unfold ipMatchesCidr at hcidr
      rw [hnone] at hcidr
      cases hcidr
    | cons c rest => rfl

theorem runTokenGranted_iff (hinv : w.Inv) (h : Assembled secret w request nowSeconds) :
    runTokenGranted secret request nowSeconds = true ↔ Enters secret w request nowSeconds .runToken := by
  unfold runTokenGranted
  rw [Option.any_eq_true]
  constructor
  · rintro ⟨⟨purpose, runId⟩, hverify, hcapture⟩
    obtain ⟨token, htoken, hverify⟩ := Option.bind_eq_some_iff.1 hverify
    split at hverify
    · cases hverify
    obtain rfl : purpose = .capture := by simpa using hcapture
    obtain ⟨hrunId, exp, hnow, hmax, hspelled⟩ := verifyStagingRunToken_iff.1 hverify
    have hpresented : lastPart token ∈ presented w request nowSeconds .runToken := by
      unfold presented
      rw [htoken]
      exact List.mem_singleton_self _
    obtain ⟨i, hi, hmessage⟩ := h.issued (by decide) hpresented (lastPart_of_spelled hspelled)
    have hplain : (Issued.run .capture runId exp).Plain := hrunId
    obtain rfl : i = .run .capture runId exp := Issued.message_injective (hinv.plain i hi) hplain hmessage
    exact ⟨runId, exp, token, hi, hnow, hmax, htoken, hspelled⟩
  · rintro ⟨runId, exp, token, hi, hnow, hmax, htoken, hspelled⟩
    refine ⟨(.capture, runId), ?_, decide_eq_true rfl⟩
    rw [htoken, Option.bind_some, if_neg (by simpa using ne_nil_of_spelled hspelled)]
    exact verifyStagingRunToken_iff.2 ⟨hinv.plain _ hi, exp, hnow, hmax, hspelled⟩

theorem mem_grantedModes (hinv : w.Inv) (h : Assembled secret w request nowSeconds) (mode : StagingAccessMode) :
    mode ∈ grantedModes w.settings secret request nowSeconds ↔ Enters secret w request nowSeconds mode := by
  have hcookie := cookieGranted_iff hinv h
  have hbasic := @basicAuthGranted_iff secret w request nowSeconds hinv
  have hheader := @headerGranted_iff secret w request nowSeconds hinv
  have hip := @ipGranted_iff secret w request nowSeconds
  have hrun := runTokenGranted_iff hinv h
  have hmem : ∀ (m : StagingAccessMode) (b : Bool), mode ∈ (if b = true then [m] else []) ↔ b = true ∧ mode = m := by
    intro m b
    cases b <;> simp
  unfold grantedModes
  simp only [List.mem_append, hmem]
  cases mode with
  | cookie => simpa using hcookie
  | basicAuth => simpa using hbasic
  | header => simpa using hheader
  | ip => simpa using hip
  | runToken => simpa using hrun

theorem decideStagingAccess_eq {via : StagingAccessMode} {satisfied : List StagingAccessMode} :
    decideStagingAccess w.settings secret request nowSeconds = .allowed via satisfied ↔
      satisfied = grantedModes w.settings secret request nowSeconds ∧ satisfied.head? = some via := by
  unfold decideStagingAccess
  cases hmodes : grantedModes w.settings secret request nowSeconds with
  | nil =>
    constructor
    · intro h
      cases h
    · rintro ⟨rfl, h⟩
      cases h
  | cons mode rest =>
    constructor
    · intro h
      cases h
      exact ⟨rfl, rfl⟩
    · rintro ⟨rfl, h⟩
      cases h
      rfl

theorem opens_of_enters (hinv : w.Inv) {mode : StagingAccessMode} (hmode : Enters secret w request nowSeconds mode)
    {i : Issued} (hi : i ∈ w.issued) (hsecret : i.secret secret ∈ presented w request nowSeconds mode) :
    i.Opens w.settings nowSeconds mode := by
  have hsame : ∀ j : Issued, j.Plain → i.secret secret = j.secret secret → i = j :=
    fun j hj h => Issued.secret_injective (hinv.plain i hi) hj h
  unfold presented at hsecret
  cases mode with
  | cookie =>
    obtain ⟨-, exp, token, -, hnow, htoken, hspelled⟩ := hmode
    rw [htoken] at hsecret
    have heq := (List.mem_singleton.1 hsecret).trans (lastPart_of_spelled hspelled)
    rw [hsame (.session exp) trivial heq]
    exact hnow
  | basicAuth =>
    obtain ⟨-, nonce, hnonce, hparse⟩ := hmode
    rw [hparse] at hsecret
    rw [hsame (.credential .basicAuth nonce) trivial (List.mem_singleton.1 hsecret)]
    exact hnonce
  | header =>
    obtain ⟨-, nonce, hnonce, hheader⟩ := hmode
    dsimp only at hsecret
    rw [hheader] at hsecret
    rw [hsame (.credential .header nonce) trivial (List.mem_singleton.1 hsecret)]
    exact hnonce
  | ip => cases hsecret
  | runToken =>
    obtain ⟨runId, exp, token, hissued, hnow, hmax, htoken, hspelled⟩ := hmode
    rw [htoken] at hsecret
    have heq := (List.mem_singleton.1 hsecret).trans (lastPart_of_spelled hspelled)
    rw [hsame (.run .capture runId exp) (hinv.plain _ hissued) heq]
    exact ⟨hnow, hmax⟩

/-- The gate lets a request in exactly when it enters by a mode of the policy, and satisfies exactly the modes it enters by.
An issued secret that is presented to a satisfied mode is one that opens it. -/
theorem decideStagingAccess_iff (hrun : GateWorld.Reachable secret w) (h : Assembled secret w request nowSeconds) :
    ((∃ via satisfied, decideStagingAccess w.settings secret request nowSeconds = .allowed via satisfied) ↔
        ∃ mode, Enters secret w request nowSeconds mode) ∧
      ∀ via satisfied, decideStagingAccess w.settings secret request nowSeconds = .allowed via satisfied →
        ∀ mode, (mode ∈ satisfied ↔ Enters secret w request nowSeconds mode) ∧
          ∀ i ∈ w.issued, mode ∈ satisfied → i.secret secret ∈ presented w request nowSeconds mode →
            i.Opens w.settings nowSeconds mode := by
  have hmem := mem_grantedModes hrun.inv h
  refine ⟨⟨?_, ?_⟩, ?_⟩
  · rintro ⟨via, satisfied, hdecide⟩
    obtain ⟨rfl, hhead⟩ := decideStagingAccess_eq.1 hdecide
    exact ⟨via, (hmem via).1 (List.mem_of_mem_head? hhead)⟩
  · rintro ⟨mode, hmode⟩
    have hin := (hmem mode).2 hmode
    cases hmodes : grantedModes w.settings secret request nowSeconds with
    | nil =>
      rw [hmodes] at hin
      cases hin
    | cons via rest => exact ⟨via, via :: rest, decideStagingAccess_eq.2 ⟨hmodes.symm, rfl⟩⟩
  · intro via satisfied hdecide mode
    obtain ⟨rfl, -⟩ := decideStagingAccess_eq.1 hdecide
    exact ⟨hmem mode, fun i hi hin hsecret => opens_of_enters hrun.inv ((hmem mode).1 hin) hi hsecret⟩

end Safety

/-! ### A re-spelled expiry -/

def sessionMessage : List Char := tokenMessage .session 2000

/-- A key under which the tag of one message is short; the other tags are long enough to be told apart. -/
def sampleTag (f : MacForm) (m : List Char) : List Char :=
  if f = .whole ∧ m = sessionMessage then ['k']
  else 'b' :: List.replicate (Encodable.encode (decide (f = .whole), m.map Char.toNat)) 'a'

theorem sampleTag_injective {f f' : MacForm} {m m' : List Char} (h : sampleTag f m = sampleTag f' m') : f = f' ∧ m = m' := by
  unfold sampleTag at h
  split at h <;> split at h
  · rename_i hone htwo
    exact ⟨hone.1.trans htwo.1.symm, hone.2.trans htwo.2.symm⟩
  · exact absurd (List.cons.inj h).1 (by decide)
  · exact absurd (List.cons.inj h).1 (by decide)
  · have hlen := congrArg List.length (List.cons.inj h).2
    rw [List.length_replicate, List.length_replicate, Encodable.encode_inj, Prod.mk.injEq] at hlen
    refine ⟨?_, List.map_injective_iff.2 (fun a b hab => Char.ext (UInt32.toNat_inj.1 hab)) hlen.2⟩
    cases f <;> cases f' <;> simp_all

def sampleSecret : GateSecret where
  tag := sampleTag
  injective := sampleTag_injective
  base64Url f m c hc := by
    unfold sampleTag at hc
    left
    split at hc
    · rw [List.mem_singleton.1 hc]
      decide
    · rcases List.mem_cons.1 hc with rfl | hc
      · decide
      · rw [(List.mem_replicate.1 hc).2]
        decide
  nonempty f m := by
    unfold sampleTag
    split <;> simp

def cookieSettings : StagingAccessSettings := ⟨true, false, [], none, false, [], none, []⟩

def sampleWorld : GateWorld := ⟨cookieSettings, [.session 2000]⟩

theorem sampleWorld_reachable : GateWorld.Reachable sampleSecret sampleWorld := by
  have hinit : GateWorld.Reachable sampleSecret ⟨cookieSettings, []⟩ := .init cookieSettings fun kind => by cases kind <;> rfl
  exact .step hinit (.session 2000)

/-- The session token of the world with zeros before its expiry. -/
def respelledRequest : StagingAccessRequest :=
  ⟨some "__session=staging%3D3000.session.002000.k".toList, none, fun _ => none, none⟩

theorem respelled_entry : stagingEntry respelledRequest.cookieHeader 1000 = some "session.002000.k".toList := by
  decide +kernel

theorem respelled_assembled : Assembled sampleSecret sampleWorld respelledRequest 1000 := by
  have htexts : accessModes.flatMap (presented sampleWorld respelledRequest 1000) = [['k']] := by
    have hlast : lastPart "session.002000.k".toList = ['k'] := by decide
    unfold accessModes presented
    simp only [List.flatMap_cons, List.flatMap_nil, respelled_entry, Option.map_some, hlast]
    rfl
  intro f m hm
  rw [htexts, List.mem_singleton] at hm
  have htag : sampleTag f m = ['k'] := hm
  unfold sampleTag at htag
  split at htag
  · rename_i hboth
    rw [hboth.2]
    exact List.mem_singleton_self _
  · exact absurd (List.cons.inj htag).1 (by decide)

theorem sampleSecret_session : sampleSecret.tag .whole (tokenMessage .session 2000) = ['k'] := by
  have htag : sampleTag .whole sessionMessage = ['k'] := by
    unfold sampleTag
    rw [if_pos ⟨rfl, rfl⟩]
  exact htag

theorem respelled_spelled : Spelled ["session".toList] 2000 ((Issued.session 2000).secret sampleSecret) "session.002000.k".toList := by
  refine ⟨"002000".toList, by decide, by decide, ?_⟩
  have htag : (Issued.session 2000).secret sampleSecret = ['k'] := sampleSecret_session
  rw [htag]
  decide

theorem decideStagingAccess_iff_respelled :
    ((∃ via satisfied, decideStagingAccess sampleWorld.settings sampleSecret respelledRequest 1000 = .allowed via satisfied) ↔
        ∃ mode, Enters sampleSecret sampleWorld respelledRequest 1000 mode) ∧
      ∀ via satisfied, decideStagingAccess sampleWorld.settings sampleSecret respelledRequest 1000 = .allowed via satisfied →
        ∀ mode, (mode ∈ satisfied ↔ Enters sampleSecret sampleWorld respelledRequest 1000 mode) ∧
          ∀ i ∈ sampleWorld.issued, mode ∈ satisfied → i.secret sampleSecret ∈ presented sampleWorld respelledRequest 1000 mode →
            i.Opens sampleWorld.settings 1000 mode :=
  decideStagingAccess_iff sampleWorld_reachable respelled_assembled

/-- A request is let in with a session entry that is no token as it was issued. -/
theorem decideStagingAccess_respelled :
    ¬ ∀ (secret : GateSecret) (w : GateWorld) (request : StagingAccessRequest) (nowSeconds : Int),
      GateWorld.Reachable secret w → Assembled secret w request nowSeconds →
        ∀ via satisfied, decideStagingAccess w.settings secret request nowSeconds = .allowed via satisfied →
          .cookie ∈ satisfied → ∃ exp, .session exp ∈ w.issued ∧
            stagingEntry request.cookieHeader nowSeconds = some (signStagingToken secret .session exp) := by
  intro hall
  have henters : Enters sampleSecret sampleWorld respelledRequest 1000 .cookie :=
    ⟨rfl, 2000, _, List.mem_singleton_self _, by decide, respelled_entry, respelled_spelled⟩
  have hin := (mem_grantedModes sampleWorld_reachable.inv respelled_assembled .cookie).2 henters
  cases hmodes : grantedModes sampleWorld.settings sampleSecret respelledRequest 1000 with
  | nil =>
    rw [hmodes] at hin
    cases hin
  | cons via rest =>
    rw [hmodes] at hin
    obtain ⟨exp, hexp, hentry⟩ := hall _ _ _ _ sampleWorld_reachable respelled_assembled via (via :: rest)
      (decideStagingAccess_eq.2 ⟨hmodes.symm, rfl⟩) hin
    cases List.mem_singleton.1 hexp
    rw [respelled_entry] at hentry
    unfold signStagingToken at hentry
    rw [sampleSecret_session] at hentry
    exact absurd hentry (by decide)

end CaeloCms.Staging
