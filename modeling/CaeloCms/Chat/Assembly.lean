import CaeloCms.Chat.HistoryRepair

/-!
# What the repair does to an assembly

`stripDanglingServerCalls` takes server calls out of the messages of a passthrough row, `dropRepeatedToolResults` takes
out results.  Neither touches anything else that the repair reads.
-/

namespace CaeloCms.Chat.History

/-! ### Parts -/

variable {part msg : Json} {x : String} {content : List Json}

theorem hasType_eq {type type' : String} (h : hasType type part = true) (h' : hasType type' part = true) :
    type = type' := by
  rw [hasType, beq_iff_eq] at h h'
  exact Option.some.inj (h.symm.trans h')

theorem hasType_eq_false_of_not_saying (h : isSayingPart part = false) {type : String}
    (hreasoning : type ≠ "reasoning") (hcustom : type ≠ "custom") : hasType type part = false := by
  simp only [isSayingPart, Bool.not_eq_false', Bool.or_eq_true] at h
  cases htype : hasType type part with
  | false => rfl
  | true =>
    rcases h with h | h
    · exact absurd (hasType_eq htype h) hreasoning
    · exact absurd (hasType_eq htype h) hcustom

/-- A reading of parts that finds nothing in reasoning and metadata. -/
def ReadsSaying {β : Type} (read : Json → Option β) : Prop := ∀ part, isSayingPart part = false → read part = none

theorem readsSaying_resultIdOf : ReadsSaying resultIdOf := by
  intro part h
  rw [resultIdOf, hasType_eq_false_of_not_saying h (by decide) (by decide),
    hasType_eq_false_of_not_saying h (by decide) (by decide)]
  rfl

theorem readsSaying_useIdOf : ReadsSaying useIdOf := by
  intro part h
  rw [useIdOf, hasType_eq_false_of_not_saying h (by decide) (by decide)]
  rfl

theorem readsSaying_clientCallOf : ReadsSaying clientCallOf := by
  intro part h
  rw [clientCallOf, hasType_eq_false_of_not_saying h (by decide) (by decide)]
  rfl

theorem readsSaying_serverCallIdOf : ReadsSaying serverCallIdOf := by
  intro part h
  rw [serverCallIdOf, hasType_eq_false_of_not_saying h (by decide) (by decide)]
  rfl

theorem resultIdOf_of_repeatable (h : repeatableIdOf part = some x) :
    resultIdOf part = some x := by
  rw [repeatableIdOf] at h
  split at h
  next htype => rw [resultIdOf, htype, Bool.true_or, if_pos rfl, h]
  next => cases h

theorem hasType_of_repeatable (h : repeatableIdOf part = some x) :
    hasType "tool-call" part = false := by
  rw [repeatableIdOf] at h
  split at h
  next htype =>
    cases hcall : hasType "tool-call" part with
    | false => rfl
    | true => exact absurd (hasType_eq hcall htype) (by decide)
  next => cases h

theorem clientCallOf_of_repeatable (h : repeatableIdOf part = some x) :
    clientCallOf part = none := by
  rw [clientCallOf, hasType_of_repeatable h]
  rfl

theorem useIdOf_of_repeatable (h : repeatableIdOf part = some x) : useIdOf part = none := by
  rw [useIdOf, hasType_of_repeatable h]
  rfl

theorem server_cases (h : serverCallIdOf part = some x) :
    hasType "tool-call" part = true ∧ isProviderExecuted part = true ∧ toolCallIdOf part = some x := by
  rw [serverCallIdOf] at h
  split at h
  next hboth =>
    rw [Bool.and_eq_true] at hboth
    exact ⟨hboth.1, hboth.2, h⟩
  next => cases h

theorem resultIdOf_of_server (h : serverCallIdOf part = some x) : resultIdOf part = none := by
  have htype := (server_cases h).1
  have hne : ∀ type, type ≠ "tool-call" → hasType type part = false := by
    intro type htype'
    cases hother : hasType type part with
    | false => rfl
    | true => exact absurd (hasType_eq hother htype) htype'
  rw [resultIdOf, hne _ (by decide), hne _ (by decide)]
  rfl

theorem clientCallOf_of_server (h : serverCallIdOf part = some x) :
    clientCallOf part = none := by
  rw [clientCallOf, (server_cases h).2.1, Bool.not_true, Bool.and_false]
  rfl

theorem useIdOf_of_server (h : serverCallIdOf part = some x) : useIdOf part = some x := by
  rw [useIdOf, (server_cases h).1, if_pos rfl, (server_cases h).2.2]

theorem useIdOf_of_client {c : PassthroughClientCall} (h : clientCallOf part = some c) :
    useIdOf part = some c.toolCallId := by
  rw [clientCallOf] at h
  split at h
  next hboth =>
    rw [Bool.and_eq_true] at hboth
    obtain ⟨id, hid, h⟩ := Option.bind_eq_some_iff.mp h
    obtain ⟨name, -, rfl⟩ := Option.map_eq_some_iff.mp h
    rw [useIdOf, hboth.1, if_pos rfl, hid]
  next => cases h

/-! ### Messages -/

theorem contentOf_withContent (h : contentOf msg = some content) (kept : List Json) :
    contentOf (withContent kept msg) = some kept := by
  cases msg with
  | obj fields =>
    have hfind : ∀ fields : List (String × Json), (fields.find? fun f => f.1 == "content") ≠ none →
        ((fields.map fun f => if f.1 == "content" then (f.1, Json.arr kept) else f).find? fun f => f.1 == "content") =
          some ("content", .arr kept) := by
      intro fields hsome
      induction fields with
      | nil => exact absurd rfl hsome
      | cons f fs ih =>
        by_cases hf : f.1 = "content"
        · simp [hf]
        · have hrest : (fs.find? fun f => f.1 == "content") ≠ none := by simpa [List.find?_cons, hf] using hsome
          simpa [List.find?_cons, hf] using ih hrest
    have hne : (fields.find? fun f => f.1 == "content") ≠ none := by
      intro hnone
      rw [contentOf, Json.field, hnone] at h
      cases h
    rw [contentOf, withContent, Json.field, hfind fields hne]
    rfl
  | _ => cases h

theorem field_withContent {name : String} (hname : name ≠ "content") (kept : List Json) (msg : Json) :
    (withContent kept msg).field name = msg.field name := by
  cases msg with
  | obj fields =>
    rw [withContent, Json.field, Json.field]
    refine congrArg _ ?_
    induction fields with
    | nil => rfl
    | cons f fs ih =>
      rw [List.map_cons, List.find?_cons, List.find?_cons, ih]
      by_cases hf : f.1 = "content"
      · have hne : (f.1 == name) = false := by simp [hf, Ne.symm hname]
        rw [if_pos (beq_iff_eq.mpr hf), hne]
      · rw [if_neg (by simpa using hf)]
  | _ => rfl

theorem toolContentOf_withContent (h : contentOf msg = some content)
    (kept : List Json) : toolContentOf (withContent kept msg) = (toolContentOf msg).map fun _ => kept := by
  have hrole : (withContent kept msg).stringField "role" = msg.stringField "role" := by
    rw [Json.stringField, Json.stringField, field_withContent (by decide)]
  rw [toolContentOf, toolContentOf, hrole, contentOf_withContent h, h]
  split <;> rfl

theorem contentOf_of_tool (h : toolContentOf msg = some content) :
    contentOf msg = some content := by
  rw [toolContentOf] at h
  split at h
  · exact h
  · cases h

/-- The results a passthrough row gives, in order. -/
def emissionOf (sdkMessages : List Json) : List String :=
  (sdkMessages.flatMap fun msg => (toolContentOf msg).getD []).filterMap repeatableIdOf

theorem sdkParts_cons (msg : Json) (rest : List Json) : sdkParts (msg :: rest) = (contentOf msg).getD [] ++ sdkParts rest :=
  rfl

theorem sdkParts_append (msgs rest : List Json) : sdkParts (msgs ++ rest) = sdkParts msgs ++ sdkParts rest :=
  List.flatMap_append

theorem emissionOf_append (msgs rest : List Json) : emissionOf (msgs ++ rest) = emissionOf msgs ++ emissionOf rest := by
  rw [emissionOf, List.flatMap_append, List.filterMap_append]
  rfl

theorem emissionOf_singleton (msg : Json) :
    emissionOf [msg] = ((toolContentOf msg).getD []).filterMap repeatableIdOf := by
  rw [emissionOf, List.flatMap_singleton]

theorem sdkParts_singleton (msg : Json) : sdkParts [msg] = (contentOf msg).getD [] := List.flatMap_singleton _ _

theorem emissionOf_subset {sdkMessages : List Json} (h : x ∈ emissionOf sdkMessages) :
    x ∈ (sdkParts sdkMessages).filterMap resultIdOf := by
  obtain ⟨part, hpart, hx⟩ := List.mem_filterMap.mp h
  obtain ⟨msg, hmsg, hcontent⟩ := List.mem_flatMap.mp hpart
  refine List.mem_filterMap.mpr ⟨part, List.mem_flatMap.mpr ⟨msg, hmsg, ?_⟩, resultIdOf_of_repeatable hx⟩
  cases htool : toolContentOf msg with
  | none =>
    rw [htool] at hcontent
    cases hcontent
  | some content =>
    rw [htool] at hcontent
    rw [contentOf_of_tool htool]
    exact hcontent

/-! ### Stripping dangling calls -/

section Strip

variable (sdkMessages : List Json) (danglingIds : List String)

def stripMessage (msg : Json) : List Json := stripDanglingServerCalls [msg] danglingIds

theorem strip_cons (msg : Json) (rest : List Json) :
    stripDanglingServerCalls (msg :: rest) danglingIds =
      stripMessage danglingIds msg ++ stripDanglingServerCalls rest danglingIds := by
  rw [stripMessage, stripDanglingServerCalls, stripDanglingServerCalls, List.flatMap_cons, List.flatMap_singleton]
  rfl

/-- The parts that stay, and those that go with a message that has nothing left to say. -/
theorem stripMessage_cases (msg : Json) :
    (contentOf msg = none ∧ stripMessage danglingIds msg = [msg]) ∨
      ∃ content, contentOf msg = some content ∧
        let kept := content.filter fun part => !isDanglingCall danglingIds part
        (stripMessage danglingIds msg = [msg] ∧ kept = content) ∨
          stripMessage danglingIds msg = [withContent kept msg] ∨
            (stripMessage danglingIds msg = [] ∧ ∀ part ∈ kept, isSayingPart part = false) := by
  rw [stripMessage, stripDanglingServerCalls, List.flatMap_singleton]
  cases hcontent : contentOf msg with
  | none => exact .inl ⟨rfl, rfl⟩
  | some content =>
    refine .inr ⟨content, rfl, ?_⟩
    dsimp only
    split
    next hlen => exact .inl ⟨rfl, List.filter_eq_self.mpr (List.length_filter_eq_length_iff.mp hlen)⟩
    next =>
      split
      next => exact .inr (.inl rfl)
      next hnone =>
        refine .inr (.inr ⟨rfl, ?_⟩)
        intro part hpart
        rw [List.any_eq_true] at hnone
        by_contra hsaying
        exact hnone ⟨part, hpart, Bool.not_eq_false _ ▸ hsaying⟩

variable {sdkMessages danglingIds}

theorem mem_stripMessage {msg part : Json} (h : part ∈ sdkParts (stripMessage danglingIds msg)) :
    part ∈ (contentOf msg).getD [] ∧ isDanglingCall danglingIds part = false := by
  rcases stripMessage_cases danglingIds msg with ⟨hcontent, hstrip⟩ | ⟨content, hcontent, hstrip⟩
  · rw [hstrip, sdkParts_singleton, hcontent] at h
    cases h
  · have hkept : part ∈ content.filter fun part => !isDanglingCall danglingIds part := by
      rcases hstrip with ⟨hstrip, hkept⟩ | hstrip | ⟨hstrip, -⟩
      · rw [hstrip, sdkParts_singleton, hcontent] at h
        rw [hkept]
        exact h
      · rwa [hstrip, sdkParts_singleton, contentOf_withContent hcontent] at h
      · rw [hstrip] at h
        cases h
    rw [hcontent]
    obtain ⟨hpart, hsafe⟩ := List.mem_filter.mp hkept
    exact ⟨hpart, by simpa using hsafe⟩

theorem mem_strip {part : Json} (h : part ∈ sdkParts (stripDanglingServerCalls sdkMessages danglingIds)) :
    part ∈ sdkParts sdkMessages ∧ isDanglingCall danglingIds part = false := by
  induction sdkMessages with
  | nil => cases h
  | cons msg rest ih =>
    rw [strip_cons, sdkParts_append] at h
    rw [sdkParts_cons, List.mem_append]
    rcases List.mem_append.mp h with h | h
    · exact ⟨.inl (mem_stripMessage h).1, (mem_stripMessage h).2⟩
    · exact ⟨.inr (ih h).1, (ih h).2⟩

theorem mem_strip_of_saying {part : Json} (h : part ∈ sdkParts sdkMessages) (hsaying : isSayingPart part = true)
    (hsafe : isDanglingCall danglingIds part = false) :
    part ∈ sdkParts (stripDanglingServerCalls sdkMessages danglingIds) := by
  induction sdkMessages with
  | nil => cases h
  | cons msg rest ih =>
    rw [strip_cons, sdkParts_append, List.mem_append]
    rcases List.mem_append.mp (sdkParts_cons msg rest ▸ h) with h | h
    · refine .inl ?_
      rcases stripMessage_cases danglingIds msg with ⟨hcontent, -⟩ | ⟨content, hcontent, hstrip⟩
      · rw [hcontent] at h
        cases h
      · rw [hcontent] at h
        have hkept : part ∈ content.filter fun part => !isDanglingCall danglingIds part :=
          List.mem_filter.mpr ⟨h, by simpa using hsafe⟩
        rcases hstrip with ⟨hstrip, -⟩ | hstrip | ⟨-, hnone⟩
        · rw [hstrip, sdkParts_singleton, hcontent]
          exact h
        · rw [hstrip, sdkParts_singleton, contentOf_withContent hcontent]
          exact hkept
        · rw [hnone part hkept] at hsaying
          cases hsaying
    · exact .inr (ih h)

end Strip

/-! ### Dropping repeated results -/

section Repeated

variable {emitted : List String} {part : Json} {rest msgs : List Json}

theorem dropRepeatedParts_none
    (h : repeatableIdOf part = none) :
    dropRepeatedParts emitted (part :: rest) =
      (part :: (dropRepeatedParts emitted rest).1, (dropRepeatedParts emitted rest).2) := by
  rw [dropRepeatedParts, h]

theorem dropRepeatedParts_repeated {x : String}
    (h : repeatableIdOf part = some x) (hx : x ∈ emitted) :
    dropRepeatedParts emitted (part :: rest) =
      ((dropRepeatedParts emitted rest).1, x :: (dropRepeatedParts emitted rest).2.1,
        (dropRepeatedParts emitted rest).2.2) := by
  rw [dropRepeatedParts, h]
  exact if_pos (by simpa using hx)

theorem dropRepeatedParts_new {x : String}
    (h : repeatableIdOf part = some x) (hx : x ∉ emitted) :
    dropRepeatedParts emitted (part :: rest) =
      (part :: (dropRepeatedParts (x :: emitted) rest).1, (dropRepeatedParts (x :: emitted) rest).2) := by
  rw [dropRepeatedParts, h]
  exact if_neg (by simpa using hx)

structure KeepsFirst (emitted given kept emitted' : List String) : Prop where
  nodup : kept.Nodup
  fresh : ∀ x ∈ kept, x ∉ emitted
  mem : ∀ x, x ∈ emitted' ↔ x ∈ emitted ∨ x ∈ kept
  complete : ∀ x ∈ given, x ∈ emitted'

theorem KeepsFirst.append {given kept emitted' given' kept' emitted'' : List String}
    (h : KeepsFirst emitted given kept emitted') (h' : KeepsFirst emitted' given' kept' emitted'') :
    KeepsFirst emitted (given ++ given') (kept ++ kept') emitted'' where
  nodup := by
    rw [List.nodup_append]
    refine ⟨h.nodup, h'.nodup, ?_⟩
    rintro x hx y hy rfl
    exact h'.fresh x hy ((h.mem x).mpr (.inr hx))
  fresh x hx := by
    rcases List.mem_append.mp hx with hx | hx
    · exact h.fresh x hx
    · exact fun hmem => h'.fresh x hx ((h.mem x).mpr (.inl hmem))
  mem x := by rw [h'.mem, h.mem, List.mem_append, or_assoc]
  complete x hx := by
    rcases List.mem_append.mp hx with hx | hx
    · exact (h'.mem x).mpr (.inl (h.complete x hx))
    · exact h'.complete x hx

theorem KeepsFirst.refl (emitted : List String) : KeepsFirst emitted [] [] emitted where
  nodup := List.nodup_nil
  fresh := by simp
  mem := by simp
  complete := by simp

theorem keepsFirst_parts (emitted : List String) (parts : List Json) :
    KeepsFirst emitted (parts.filterMap repeatableIdOf) ((dropRepeatedParts emitted parts).1.filterMap repeatableIdOf)
      (dropRepeatedParts emitted parts).2.2 := by
  induction parts generalizing emitted with
  | nil => exact KeepsFirst.refl emitted
  | cons part rest ih =>
    cases hpart : repeatableIdOf part with
    | none =>
      rw [dropRepeatedParts_none hpart, List.filterMap_cons_none hpart, List.filterMap_cons_none hpart]
      exact ih emitted
    | some x =>
      rw [List.filterMap_cons_some hpart]
      by_cases hx : x ∈ emitted
      · rw [dropRepeatedParts_repeated hpart hx]
        have hrest := ih emitted
        refine ⟨hrest.nodup, hrest.fresh, hrest.mem, ?_⟩
        intro y hy
        rcases List.mem_cons.mp hy with rfl | hy
        · exact (hrest.mem y).mpr (.inl hx)
        · exact hrest.complete y hy
      · rw [dropRepeatedParts_new hpart hx, List.filterMap_cons_some hpart]
        have hfirst : KeepsFirst emitted [x] [x] (x :: emitted) := by
          refine ⟨List.nodup_singleton x, by simpa using hx, ?_, by simp⟩
          intro y
          simp [or_comm]
        exact hfirst.append (ih (x :: emitted))

theorem dropRepeatedParts_sublist (emitted : List String) (parts : List Json) :
    (dropRepeatedParts emitted parts).1.Sublist parts := by
  induction parts generalizing emitted with
  | nil => exact List.Sublist.slnil
  | cons p rest ih =>
    cases hp : repeatableIdOf p with
    | none =>
      rw [dropRepeatedParts_none hp]
      exact (ih emitted).cons_cons p
    | some x =>
      by_cases hx : x ∈ emitted
      · rw [dropRepeatedParts_repeated hp hx]
        exact (ih emitted).cons p
      · rw [dropRepeatedParts_new hp hx]
        exact (ih (x :: emitted)).cons_cons p

theorem mem_dropRepeatedParts_or {parts : List Json} (h : part ∈ parts) :
    part ∈ (dropRepeatedParts emitted parts).1 ∨ repeatableIdOf part ≠ none := by
  induction parts generalizing emitted with
  | nil => cases h
  | cons p rest ih =>
    cases hp : repeatableIdOf p with
    | none =>
      rw [dropRepeatedParts_none hp]
      rcases List.mem_cons.mp h with rfl | h
      · exact .inl List.mem_cons_self
      · exact (ih h).imp_left (List.mem_cons_of_mem _)
    | some x =>
      rcases List.mem_cons.mp h with rfl | h
      · exact .inr (by simp [hp])
      · by_cases hx : x ∈ emitted
        · rw [dropRepeatedParts_repeated hp hx]
          exact ih h
        · rw [dropRepeatedParts_new hp hx]
          exact (ih h).imp_left (List.mem_cons_of_mem _)

/-- Nothing is dropped when every result is the first one of its call. -/
theorem dropRepeatedParts_eq_nil {parts : List Json} :
    (dropRepeatedParts emitted parts).2.1 = [] ↔
      (parts.filterMap repeatableIdOf).Nodup ∧ ∀ x ∈ parts.filterMap repeatableIdOf, x ∉ emitted := by
  induction parts generalizing emitted with
  | nil => simp [dropRepeatedParts]
  | cons part rest ih =>
    cases hpart : repeatableIdOf part with
    | none => rw [dropRepeatedParts_none hpart, List.filterMap_cons_none hpart, ih]
    | some x =>
      rw [List.filterMap_cons_some hpart]
      by_cases hx : x ∈ emitted
      · rw [dropRepeatedParts_repeated hpart hx]
        simp [hx]
      · rw [dropRepeatedParts_new hpart hx, ih]
        rw [List.nodup_cons, List.forall_mem_cons]
        simp only [List.mem_cons, not_or]
        constructor
        · rintro ⟨hnodup, hfresh⟩
          exact ⟨⟨fun hmem => (hfresh x hmem).1 rfl, hnodup⟩, hx, fun y hy => (hfresh y hy).2⟩
        · rintro ⟨⟨hxrest, hnodup⟩, -, hfresh⟩
          exact ⟨hnodup, fun y hy => ⟨fun heq => hxrest (heq ▸ hy), hfresh y hy⟩⟩

def dropInMessage (msg : Json) (content kept : List Json) : List Json :=
  if kept.length = content.length then [msg] else if kept.isEmpty then [] else [withContent kept msg]

theorem dropRepeatedMessages_other {msg : Json}
    (h : toolContentOf msg = none) :
    dropRepeatedMessages emitted (msg :: rest) =
      (msg :: (dropRepeatedMessages emitted rest).1, (dropRepeatedMessages emitted rest).2) := by
  rw [dropRepeatedMessages, h]

theorem dropRepeatedMessages_tool {msg : Json} {content : List Json}
    (h : toolContentOf msg = some content) :
    dropRepeatedMessages emitted (msg :: rest) =
      let parts := dropRepeatedParts emitted content
      let later := dropRepeatedMessages parts.2.2 rest
      (dropInMessage msg content parts.1 ++ later.1, parts.2.1 ++ later.2.1, later.2.2) := by
  rw [dropRepeatedMessages, h]
  rfl

section InMessage

variable {msg : Json} {content kept : List Json} (h : toolContentOf msg = some content) (hkept : kept.Sublist content)
include h hkept

theorem sdkParts_dropInMessage : sdkParts (dropInMessage msg content kept) = kept := by
  have hcontent := contentOf_of_tool h
  rw [dropInMessage]
  split
  next hlen => rw [sdkParts_singleton, hcontent, Option.getD_some, hkept.eq_of_length hlen]
  next =>
    split
    next hnil =>
      rw [List.isEmpty_iff.mp hnil]
      rfl
    next => rw [sdkParts_singleton, contentOf_withContent hcontent, Option.getD_some]

theorem emissionOf_dropInMessage : emissionOf (dropInMessage msg content kept) = kept.filterMap repeatableIdOf := by
  have hcontent := contentOf_of_tool h
  rw [dropInMessage]
  split
  next hlen => rw [emissionOf_singleton, h, Option.getD_some, hkept.eq_of_length hlen]
  next =>
    split
    next hnil =>
      rw [List.isEmpty_iff.mp hnil]
      rfl
    next => rw [emissionOf_singleton, toolContentOf_withContent hcontent, h, Option.map_some, Option.getD_some]

end InMessage

theorem emissionOf_cons (msg : Json) (rest : List Json) :
    emissionOf (msg :: rest) = ((toolContentOf msg).getD []).filterMap repeatableIdOf ++ emissionOf rest := by
  rw [← List.singleton_append, emissionOf_append, emissionOf_singleton]

theorem keepsFirst_messages (emitted : List String) (msgs : List Json) :
    KeepsFirst emitted (emissionOf msgs) (emissionOf (dropRepeatedMessages emitted msgs).1)
      (dropRepeatedMessages emitted msgs).2.2 := by
  induction msgs generalizing emitted with
  | nil => exact KeepsFirst.refl emitted
  | cons msg rest ih =>
    rw [emissionOf_cons]
    cases htool : toolContentOf msg with
    | none =>
      rw [dropRepeatedMessages_other htool, emissionOf_cons, htool]
      exact ih emitted
    | some content =>
      rw [dropRepeatedMessages_tool htool]
      dsimp only
      rw [emissionOf_append, emissionOf_dropInMessage htool (dropRepeatedParts_sublist emitted content)]
      exact (keepsFirst_parts emitted content).append (ih _)

theorem mem_dropRepeatedMessages
    (h : part ∈ sdkParts (dropRepeatedMessages emitted msgs).1) : part ∈ sdkParts msgs := by
  induction msgs generalizing emitted with
  | nil => cases h
  | cons msg rest ih =>
    rw [sdkParts_cons, List.mem_append]
    cases htool : toolContentOf msg with
    | none =>
      rw [dropRepeatedMessages_other htool, sdkParts_cons, List.mem_append] at h
      exact h.imp_right ih
    | some content =>
      have hsub := dropRepeatedParts_sublist emitted content
      rw [dropRepeatedMessages_tool htool] at h
      dsimp only at h
      rw [sdkParts_append, sdkParts_dropInMessage htool hsub, List.mem_append] at h
      rw [contentOf_of_tool htool]
      exact h.imp (fun hpart => hsub.subset hpart) ih

theorem mem_dropRepeatedMessages_or
    (h : part ∈ sdkParts msgs) :
    part ∈ sdkParts (dropRepeatedMessages emitted msgs).1 ∨
      ∃ x ∈ emissionOf msgs, repeatableIdOf part = some x := by
  induction msgs generalizing emitted with
  | nil => cases h
  | cons msg rest ih =>
    rw [sdkParts_cons, List.mem_append] at h
    rw [emissionOf_cons]
    cases htool : toolContentOf msg with
    | none =>
      rw [dropRepeatedMessages_other htool, sdkParts_cons, List.mem_append]
      rcases h with h | h
      · exact .inl (.inl h)
      · exact (ih h).imp_left .inr
    | some content =>
      rw [dropRepeatedMessages_tool htool]
      dsimp only
      rw [sdkParts_append, sdkParts_dropInMessage htool (dropRepeatedParts_sublist emitted content), List.mem_append]
      rcases h with h | h
      · rw [contentOf_of_tool htool] at h
        rcases mem_dropRepeatedParts_or h with hkept | hrep
        · exact .inl (.inl hkept)
        · obtain ⟨x, hx⟩ := Option.ne_none_iff_exists'.mp hrep
          exact .inr ⟨x, List.mem_append_left _ (List.mem_filterMap.mpr ⟨part, h, hx⟩), hx⟩
      · rcases ih h with hkept | ⟨x, hx, hrep⟩
        · exact .inl (.inr hkept)
        · exact .inr ⟨x, List.mem_append_right _ hx, hrep⟩

theorem dropRepeatedMessages_eq_nil :
    (dropRepeatedMessages emitted msgs).2.1 = [] ↔
      (emissionOf msgs).Nodup ∧ ∀ x ∈ emissionOf msgs, x ∉ emitted := by
  induction msgs generalizing emitted with
  | nil => simp [dropRepeatedMessages, emissionOf]
  | cons msg rest ih =>
    rw [emissionOf_cons]
    cases htool : toolContentOf msg with
    | none =>
      rw [dropRepeatedMessages_other htool]
      exact ih
    | some content =>
      have hkeeps := keepsFirst_parts emitted content
      rw [dropRepeatedMessages_tool htool]
      dsimp only
      rw [List.append_eq_nil_iff, dropRepeatedParts_eq_nil, ih, Option.getD_some, List.nodup_append, List.forall_mem_append]
      constructor
      · rintro ⟨⟨hnodup, hfresh⟩, hnodup', hfresh'⟩
        refine ⟨⟨hnodup, hnodup', ?_⟩, hfresh, fun x hx hmem => hfresh' x hx ((hkeeps.mem x).mpr (.inl hmem))⟩
        rintro x hx y hy rfl
        exact hfresh' x hy (hkeeps.complete x hx)
      · rintro ⟨⟨hnodup, hnodup', hdisjoint⟩, hfresh, hfresh'⟩
        refine ⟨⟨hnodup, hfresh⟩, hnodup', ?_⟩
        intro x hx hmem
        rcases (hkeeps.mem x).mp hmem with hmem | hmem
        · exact hfresh' x hx hmem
        · refine hdisjoint x ?_ x hx rfl
          obtain ⟨part, hpart, hrep⟩ := List.mem_filterMap.mp hmem
          exact List.mem_filterMap.mpr ⟨part, (dropRepeatedParts_sublist emitted content).subset hpart, hrep⟩

theorem length_dropRepeatedParts (emitted : List String) (parts : List Json) :
    (dropRepeatedParts emitted parts).1.length + (dropRepeatedParts emitted parts).2.1.length = parts.length := by
  induction parts generalizing emitted with
  | nil => rfl
  | cons part rest ih =>
    cases hpart : repeatableIdOf part with
    | none =>
      have hrest := ih emitted
      rw [dropRepeatedParts_none hpart]
      simp only [List.length_cons]
      omega
    | some x =>
      by_cases hx : x ∈ emitted
      · have hrest := ih emitted
        rw [dropRepeatedParts_repeated hpart hx]
        simp only [List.length_cons]
        omega
      · have hrest := ih (x :: emitted)
        rw [dropRepeatedParts_new hpart hx]
        simp only [List.length_cons]
        omega

theorem dropRepeatedMessages_same
    (h : (dropRepeatedMessages emitted msgs).2.1 = []) : (dropRepeatedMessages emitted msgs).1 = msgs := by
  induction msgs generalizing emitted with
  | nil => rfl
  | cons msg rest ih =>
    cases htool : toolContentOf msg with
    | none =>
      rw [dropRepeatedMessages_other htool] at h ⊢
      exact congrArg _ (ih h)
    | some content =>
      rw [dropRepeatedMessages_tool htool] at h ⊢
      obtain ⟨hhere, hlater⟩ := List.append_eq_nil_iff.mp h
      have hlen := length_dropRepeatedParts emitted content
      rw [hhere, List.length_nil, Nat.add_zero] at hlen
      dsimp only
      rw [ih hlater, dropInMessage, if_pos hlen]
      rfl

theorem dropRepeatedToolResults_eq (emitted : List String) (msgs : List Json) :
    dropRepeatedToolResults msgs emitted = dropRepeatedMessages emitted msgs := by
  change (if (dropRepeatedMessages emitted msgs).2.1.isEmpty then (msgs, [], (dropRepeatedMessages emitted msgs).2.2)
    else dropRepeatedMessages emitted msgs) = _
  split
  next hnone =>
    have hnil := List.isEmpty_iff.mp hnone
    refine Prod.ext (dropRepeatedMessages_same hnil).symm (Prod.ext hnil.symm rfl)
  next => rfl

end Repeated

end CaeloCms.Chat.History
