import Mathlib.Algebra.NeZero
import Mathlib.Algebra.Ring.Int.Defs
import LatentSpec.DelimitedSearch
import LatentSpec.OrderedDict
import LatentSpec.WhileLoop

/-! # The loss mask of a chat

`GeneralParser.parse` renders a conversation, finds the assistant turns again in the text with a
regular expression and marks the tokens of each one by encoding the text up to its start and up to
its end.  A rendered conversation is a row of blocks in the sense of `DelimitedSearch`, whose
`finditer_joined` gives the turns found; `parse_spec` says which tokens that marks.

The chat template of the tokenizer and its encoding are the parameters `applyChatTemplate` and
`ids`, the values a `tool_calls` text stands for a type `J` with its reader `jsonLoads`.
-/
namespace LatentSpec.ChatParser
open DelimitedSearch WhileLoop

/-! ### Templates -/

structure ChatTemplate where
  assistantHeader : Option String
  userHeader : Option String
  systemPrompt : Option String
  endOfTurnToken : Option String
  assistantLossPrefix : Option String := none

def qwenTemplate : ChatTemplate where
  assistantHeader := some "<|im_start|>assistant\n"
  userHeader := some "<|im_start|>user\n"
  systemPrompt := some "You are a helpful assistant."
  endOfTurnToken := some "<|im_end|>\n"

def gemma4Template : ChatTemplate where
  assistantHeader := some "<|turn>model\n"
  userHeader := some "<|turn>user\n"
  systemPrompt := none
  endOfTurnToken := some "<turn|>\n"
  assistantLossPrefix := some "<|channel>thought\n<channel|>"

/-- `TEMPLATE_REGISTRY` -/
def templateRegistry : OrderedDict String ChatTemplate where
  items := [("qwen", qwenTemplate), ("gemma4", gemma4Template)]
  nodup := by decide

/-! ### Conversations -/

/-- The content of a message; `other` is one that is no text. -/
inductive Content
  | text (s : List Char)
  | other

inductive ToolCalls (J : Type)
  | absent
  | text (s : List Char)
  | value (v : J)

structure Message (J : Type) where
  role : String
  content : Content
  toolCalls : ToolCalls J := .absent

/-- What `parse` can raise. -/
inductive ParseError
  | indexError
  /-- `Conversation must start with user, got {role}.` -/
  | firstRole (role : String)
  /-- `Failed to parse tool_calls JSON: {tool_calls}` -/
  | toolCalls (text : List Char)
  /-- `Gemma4 non-thinking training expects assistant content to be text.` -/
  | contentNotText
  /-- The chat template of the tokenizer refused the messages. -/
  | chatTemplate

/-- A tokenizer: its chat template, without a generation prompt, and the ids of a text, without
special tokens. -/
structure Tokenizer (J : Type) where
  applyChatTemplate : List (Message J) → Except ParseError (List Char)
  ids : List Char → List ℤ

/-- `tokenizer.encode` with `truncation=True` keeps the first `max_length` tokens. -/
def Tokenizer.encode {J : Type} (tokenizer : Tokenizer J) (text : List Char) (maxLength : ℕ) :
    List ℤ := (tokenizer.ids text).take maxLength

structure ParsedRecord where
  inputIds : List ℤ
  attentionMask : List ℤ
  lossMask : List ℤ

/-! ### `GeneralParser` -/

structure GeneralParser (J : Type) where
  tokenizer : Tokenizer J
  chatTemplate : ChatTemplate

/-- `text or ""` -/
def orEmpty (text : Option String) : List Char := (text.getD "").toList

namespace ChatTemplate
variable (template : ChatTemplate)

def header : List Char := orEmpty template.assistantHeader

def endOfTurn : List Char := orEmpty template.endOfTurnToken

def lossPrefix : List Char := orEmpty template.assistantLossPrefix

end ChatTemplate

namespace GeneralParser
variable {J : Type} (jsonLoads : List Char → Option J)

/-- One turn of the loop over the conversation. -/
def readSentence : Message J × ℕ → Except ParseError (Message J)
  | (sentence, idx) =>
    if idx ≠ 0 ∨ sentence.role = "user" then
      match sentence.toolCalls with
      | .text s =>
        match jsonLoads s with
        | some v => .ok { sentence with toolCalls := .value v }
        | none => .error (.toolCalls s)
      | _ => .ok sentence
    else .error (.firstRole sentence.role)

variable (parser : GeneralParser J)

/-- The system message, of the sample or of the template, and the conversation after it. -/
def splitSystem (first : Message J) (rest : List (Message J)) :
    List (Message J) × List (Message J) :=
  if first.role = "system" then ([{ role := "system", content := first.content }], rest)
  else
    match parser.chatTemplate.systemPrompt with
    | some prompt =>
      if prompt = "" then ([], first :: rest)
      else ([{ role := "system", content := .text prompt.toList }], first :: rest)
    | none => ([], first :: rest)

/-- The `messages` of `parse`. -/
def collectMessages : List (Message J) → Except ParseError (List (Message J))
  | [] => .error .indexError
  | first :: rest => do
    let (messages, conversation) := parser.splitSystem first rest
    let sentences ← conversation.zipIdx.mapM (readSentence jsonLoads)
    return messages ++ sentences

/-- One turn of the loop of `_prepare_render_messages`. -/
def prepareMessage (lossPrefix : List Char) (message : Message J) :
    Except ParseError (Message J) :=
  if message.role ≠ "assistant" then .ok message
  else
    match message.content with
    | .other => .error .contentNotText
    | .text content =>
      if lossPrefix <+: content then .ok message
      else .ok { message with content := .text (lossPrefix ++ content) }

/-- `_prepare_render_messages` -/
def prepareRenderMessages (messages : List (Message J)) : Except ParseError (List (Message J)) :=
  if parser.chatTemplate.lossPrefix = [] then .ok messages
  else messages.mapM (prepareMessage parser.chatTemplate.lossPrefix)

/-- The messages `parse` renders. -/
def renderMessages (conversation : List (Message J)) : Except ParseError (List (Message J)) := do
  let messages ← parser.collectMessages jsonLoads conversation
  parser.prepareRenderMessages messages

/-- `content_start_char` -/
def contentStart (text : List Char) (start : ℕ) : ℕ :=
  let lossPrefix := parser.chatTemplate.lossPrefix
  if lossPrefix ≠ [] ∧ lossPrefix <+: text.drop start then start + lossPrefix.length else start

/-- `if start < end: loss_mask[start:end] = 1` -/
def markTokens (lossMask : List ℤ) (start stop : ℕ) : List ℤ :=
  if start < stop then lossMask.mapIdx fun i v => if start ≤ i ∧ i < stop then 1 else v
  else lossMask

/-- The loop of `parse` over the matches, one turn. -/
def markMatch (text : List Char) (maxLength : ℕ) (inputIds : List ℤ) (lossMask : List ℤ)
    (span : ℕ × ℕ) : List ℤ :=
  let prefixIds := parser.tokenizer.encode (text.take (parser.contentStart text span.1)) maxLength
  let fullIds := parser.tokenizer.encode (text.take span.2) maxLength
  markTokens lossMask (min prefixIds.length inputIds.length) (min fullIds.length inputIds.length)

/-- `re.finditer(self.assistant_pattern, text)`, the groups. -/
def findTurns (text : List Char) : List (ℕ × ℕ) :=
  finditer '\n' parser.chatTemplate.header parser.chatTemplate.endOfTurn (2 * text.length + 2)
    false 0 text

/-- `parse` -/
def parse (conversation : List (Message J)) (maxLength : ℕ) : Except ParseError ParsedRecord := do
  let messages ← parser.renderMessages jsonLoads conversation
  let text ← parser.tokenizer.applyChatTemplate messages
  let inputIds := parser.tokenizer.encode text maxLength
  let lossMask := (parser.findTurns text).foldl (parser.markMatch text maxLength inputIds)
    (List.replicate inputIds.length 0)
  return {
    inputIds := inputIds
    attentionMask := List.replicate inputIds.length 1
    lossMask := lossMask }

end GeneralParser

/-! ### Rendered conversations -/

/-- The markers of the registered templates are lines that start with `<` and repeat it nowhere. -/
theorem markers_of_registry {name : String} {template : ChatTemplate}
    (h : templateRegistry.get? name = some template) :
    Markers '<' '\n' template.header template.endOfTurn := by
  have hmem := OrderedDict.get?_eq_some.mp h
  simp only [templateRegistry, List.mem_cons, Prod.mk.injEq, List.not_mem_nil, or_false] at hmem
  rcases hmem with ⟨-, rfl⟩ | ⟨-, rfl⟩
  · constructor <;> decide +kernel
  · constructor <;> decide +kernel

section Rendered
variable {J : Type} {parser : GeneralParser J} {template : ChatTemplate}
  {messages : List (Message J)} {turns : List (Block Char)} {text : List Char}

/-- The turn of a message: its role header and its content.  The header of an assistant is the
template's, that of another role a line without it; the content is a text with neither the
assistant header nor the end-of-turn string. -/
structure IsTurn (template : ChatTemplate) (message : Message J) (turn : Block Char) : Prop where
  content : message.content = .text turn.body
  opened : turn.opened = true ↔ message.role = "assistant"
  valid : turn.Valid '\n' template.header template.endOfTurn

/-- The text is header, content and end-of-turn string of every message, the last end-of-turn
string possibly without its newline. -/
structure Renders (template : ChatTemplate) (messages : List (Message J))
    (turns : List (Block Char)) (text : List Char) : Prop where
  each : List.Forall₂ (IsTurn template) messages turns
  text : text = joined template.endOfTurn turns ∨
    text ++ ['\n'] = joined template.endOfTurn turns

/-- `text[start:stop]` is the content of an assistant turn, behind the loss prefix, with the
end-of-turn string. -/
def AssistantSpan (template : ChatTemplate) (turns : List (Block Char)) (text : List Char)
    (start stop : ℕ) : Prop :=
  ∃ before turn after, turns = before ++ turn :: after ∧ turn.opened = true ∧
    start = (joined template.endOfTurn before).length + turn.head.length +
      template.lossPrefix.length ∧
    stop = min ((joined template.endOfTurn before).length +
      (turn.head ++ (turn.body ++ template.endOfTurn)).length) text.length

/-- Token `i` of a text is encoded from `text[start:stop]`: the encodings of the text up to
`start` and up to `stop` cut its tokens before and after it. -/
def EncodedFrom (ids : List Char → List ℤ) (text : List Char) (start stop i : ℕ) : Prop :=
  ∃ before within after, ids text = before ++ within ++ after ∧ ids (text.take start) = before ∧
    ids (text.take stop) = before ++ within ∧
    before.length ≤ i ∧ i < before.length + within.length

theorem encodedFrom_iff {ids : List Char → List ℤ} {start stop i : ℕ}
    (hstart : ids (text.take start) <+: ids text) (hstop : ids (text.take stop) <+: ids text) :
    EncodedFrom ids text start stop i ↔
      (ids (text.take start)).length ≤ i ∧ i < (ids (text.take stop)).length := by
  constructor
  · rintro ⟨before, within, after, -, hbefore, hwithin, hle, hlt⟩
    rw [hbefore, hwithin, List.length_append]
    exact ⟨hle, hlt⟩
  · rintro ⟨hle, hlt⟩
    have hpre : ids (text.take start) <+: ids (text.take stop) :=
      List.prefix_of_prefix_length_le hstart hstop (hle.trans hlt.le)
    obtain ⟨within, hwithin⟩ := hpre
    obtain ⟨after, hafter⟩ := hstop
    refine ⟨_, within, after, ?_, rfl, hwithin.symm, hle, ?_⟩
    · rw [hwithin, hafter]
    · rw [← List.length_append, hwithin]
      exact hlt

/-! ### The turns that are found -/

/-- What the messages of a template with a loss prefix render with. -/
theorem exists_of_mapM {α β : Type} {f : α → Except ParseError β} {xs : List α} {ys : List β}
    (h : xs.mapM f = .ok ys) {y : β} (hy : y ∈ ys) : ∃ x, f x = .ok y := by
  induction xs generalizing ys with
  | nil =>
    obtain rfl : [] = ys := Except.ok.inj h
    cases hy
  | cons x xs ih =>
    rw [List.mapM_cons] at h
    obtain ⟨z, hz, h⟩ := bind_ok h
    obtain ⟨zs, hzs, h⟩ := bind_ok h
    obtain rfl : z :: zs = ys := Except.ok.inj h
    rcases List.mem_cons.mp hy with rfl | hy
    · exact ⟨x, hz⟩
    · exact ih hzs hy

theorem lossPrefix_of_prepareMessage {lossPrefix : List Char} {message rendered : Message J}
    (h : GeneralParser.prepareMessage lossPrefix message = .ok rendered)
    (hrole : rendered.role = "assistant") {content : List Char}
    (hcontent : rendered.content = .text content) : lossPrefix <+: content := by
  unfold GeneralParser.prepareMessage at h
  split at h
  · rename_i hne
    obtain rfl := Except.ok.inj h
    exact absurd hrole hne
  · split at h
    · cases h
    · rename_i given hgiven
      split at h
      · rename_i hpre
        obtain rfl := Except.ok.inj h
        rw [hgiven] at hcontent
        obtain rfl := Content.text.inj hcontent
        exact hpre
      · obtain rfl := Except.ok.inj h
        obtain rfl := Content.text.inj hcontent
        exact List.prefix_append lossPrefix given

/-- **Every assistant content that is rendered starts with the loss prefix.** -/
theorem lossPrefix_prefix {jsonLoads : List Char → Option J} {conversation : List (Message J)}
    (h : parser.renderMessages jsonLoads conversation = .ok messages) {message : Message J}
    (hmem : message ∈ messages) (hrole : message.role = "assistant") {content : List Char}
    (hcontent : message.content = .text content) :
    parser.chatTemplate.lossPrefix <+: content := by
  unfold GeneralParser.renderMessages at h
  obtain ⟨collected, -, h⟩ := bind_ok h
  unfold GeneralParser.prepareRenderMessages at h
  split at h
  · rename_i hnil
    rw [hnil]
    exact List.nil_prefix
  · obtain ⟨given, hgiven⟩ := exists_of_mapM h hmem
    exact lossPrefix_of_prepareMessage hgiven hrole hcontent

theorem Renders.exists_message (h : Renders template messages turns text) {turn : Block Char}
    (hturn : turn ∈ turns) : ∃ message ∈ messages, IsTurn template message turn := by
  obtain ⟨i, hi, rfl⟩ := List.getElem_of_mem hturn
  have hi' : i < messages.length := by
    rw [h.each.length_eq]
    exact hi
  exact ⟨messages[i], List.getElem_mem hi', h.each.get hi' hi⟩

theorem Renders.valid (h : Renders template messages turns text) :
    ∀ turn ∈ turns, turn.Valid '\n' template.header template.endOfTurn := by
  intro turn hturn
  obtain ⟨message, -, hmessage⟩ := h.exists_message hturn
  exact hmessage.valid

theorem mem_findTurns (h : Renders parser.chatTemplate messages turns text)
    (hmarkers : Markers '<' '\n' parser.chatTemplate.header parser.chatTemplate.endOfTurn)
    {span : ℕ × ℕ} : span ∈ parser.findTurns text ↔
      ∃ before turn after, turns = before ++ turn :: after ∧ turn.opened = true ∧
        span = ((joined parser.chatTemplate.endOfTurn before).length + turn.head.length,
          min ((joined parser.chatTemplate.endOfTurn before).length +
            (turn.head ++ (turn.body ++ parser.chatTemplate.endOfTurn)).length) text.length) := by
  have hfuel : text.length < 2 * text.length + 2 := by omega
  unfold GeneralParser.findTurns
  rw [finditer_joined hmarkers h.valid h.text hfuel, mem_openedSpans]
  simp only [Nat.zero_add]

/-- **The turns found are the assistant turns**, each from behind its loss prefix. -/
theorem exists_findTurns_iff (h : Renders parser.chatTemplate messages turns text)
    (hmarkers : Markers '<' '\n' parser.chatTemplate.header parser.chatTemplate.endOfTurn)
    (hlead : ∀ turn ∈ turns, turn.opened = true → parser.chatTemplate.lossPrefix <+: turn.body)
    {start stop : ℕ} :
    (∃ span ∈ parser.findTurns text, start = parser.contentStart text span.1 ∧ stop = span.2) ↔
      AssistantSpan parser.chatTemplate turns text start stop := by
  have hstart : ∀ before turn after, turns = before ++ turn :: after → turn.opened = true →
      parser.contentStart text ((joined parser.chatTemplate.endOfTurn before).length +
          turn.head.length) =
        (joined parser.chatTemplate.endOfTurn before).length + turn.head.length +
          parser.chatTemplate.lossPrefix.length := by
    rintro before turn after rfl hopened
    obtain ⟨rest, hrest⟩ := exists_drop_body hmarkers h.text
    have hmem : turn ∈ before ++ turn :: after := by simp
    unfold GeneralParser.contentStart
    dsimp only
    rw [hrest]
    split
    · rfl
    · rename_i hno
      have hnil : parser.chatTemplate.lossPrefix = [] := by
        by_contra hne
        exact hno ⟨hne, (hlead turn hmem hopened).trans (List.prefix_append _ rest)⟩
      rw [hnil, List.length_nil, Nat.add_zero]
  constructor
  · rintro ⟨span, hspan, rfl, rfl⟩
    obtain ⟨before, turn, after, hturns, hopened, rfl⟩ := (mem_findTurns h hmarkers).mp hspan
    exact ⟨before, turn, after, hturns, hopened, hstart before turn after hturns hopened, rfl⟩
  · rintro ⟨before, turn, after, hturns, hopened, rfl, rfl⟩
    refine ⟨_, (mem_findTurns h hmarkers).mpr ⟨before, turn, after, hturns, hopened, rfl⟩, ?_, rfl⟩
    exact (hstart before turn after hturns hopened).symm

end Rendered

/-! ### The mask -/

section Mask
variable {J : Type} {parser : GeneralParser J}

theorem length_markTokens (lossMask : List ℤ) (start stop : ℕ) :
    (GeneralParser.markTokens lossMask start stop).length = lossMask.length := by
  unfold GeneralParser.markTokens
  split
  · exact List.length_mapIdx
  · rfl

theorem getElem?_markTokens (lossMask : List ℤ) (start stop : ℕ) {i : ℕ}
    (hi : i < lossMask.length) :
    (GeneralParser.markTokens lossMask start stop)[i]? =
      if start ≤ i ∧ i < stop then some 1 else lossMask[i]? := by
  unfold GeneralParser.markTokens
  by_cases hlt : start < stop
  · rw [if_pos hlt, List.getElem?_mapIdx, List.getElem?_eq_getElem hi, Option.map_some]
    split
    · rfl
    · rfl
  · have hempty : ¬ (start ≤ i ∧ i < stop) := by omega
    rw [if_neg hlt, if_neg hempty]

/-- The tokens that one match marks. -/
def Marks (parser : GeneralParser J) (text : List Char) (span : ℕ × ℕ) (i : ℕ) : Prop :=
  (parser.tokenizer.ids (text.take (parser.contentStart text span.1))).length ≤ i ∧
    i < (parser.tokenizer.ids (text.take span.2)).length

/-- An entry is set to 1 when `P` holds and left alone otherwise. -/
def SetWhen (P : Prop) (old new : Option ℤ) : Prop := (P ∧ new = some 1) ∨ (¬ P ∧ new = old)

theorem SetWhen.trans {P Q : Prop} {a b c : Option ℤ} (hP : SetWhen P a b) (hQ : SetWhen Q b c) :
    SetWhen (P ∨ Q) a c := by
  rcases hQ with ⟨hQ, hc⟩ | ⟨hQ, hc⟩
  · exact Or.inl ⟨Or.inr hQ, hc⟩
  · rcases hP with ⟨hP, hb⟩ | ⟨hP, hb⟩
    · exact Or.inl ⟨Or.inl hP, hc.trans hb⟩
    · exact Or.inr ⟨not_or.mpr ⟨hP, hQ⟩, hc.trans hb⟩

variable {text : List Char} {maxLength i : ℕ} {lossMask : List ℤ}

theorem length_markMatch (inputIds : List ℤ) (span : ℕ × ℕ) :
    (parser.markMatch text maxLength inputIds lossMask span).length = lossMask.length :=
  length_markTokens _ _ _

/-- One match marks its tokens, of those that `max_length` leaves, and no other. -/
theorem setWhen_markMatch
    (hlen : lossMask.length = (parser.tokenizer.encode text maxLength).length)
    (hi : i < (parser.tokenizer.encode text maxLength).length) (span : ℕ × ℕ) :
    SetWhen (Marks parser text span i) lossMask[i]?
      (parser.markMatch text maxLength (parser.tokenizer.encode text maxLength) lossMask
        span)[i]? := by
  have hmask : i < lossMask.length := hlen ▸ hi
  unfold GeneralParser.markMatch
  dsimp only
  rw [getElem?_markTokens lossMask _ _ hmask]
  unfold Tokenizer.encode at hi ⊢
  simp only [List.length_take] at hi ⊢
  unfold Marks
  split
  · exact Or.inl ⟨by omega, rfl⟩
  · exact Or.inr ⟨by omega, rfl⟩

/-- **The loop over the matches** marks the tokens of each, and leaves the others. -/
theorem setWhen_foldl_markMatch (spans : List (ℕ × ℕ))
    (hlen : lossMask.length = (parser.tokenizer.encode text maxLength).length)
    (hi : i < (parser.tokenizer.encode text maxLength).length) :
    SetWhen (∃ span ∈ spans, Marks parser text span i) lossMask[i]?
      (spans.foldl (parser.markMatch text maxLength (parser.tokenizer.encode text maxLength))
        lossMask)[i]? := by
  induction spans generalizing lossMask with
  | nil => exact Or.inr ⟨fun ⟨_, hmem, _⟩ => (nomatch hmem), rfl⟩
  | cons span spans ih =>
    have hfirst := setWhen_markMatch hlen hi span
    have hlen' : (parser.markMatch text maxLength (parser.tokenizer.encode text maxLength) lossMask
        span).length = (parser.tokenizer.encode text maxLength).length :=
      (length_markMatch _ span).trans hlen
    have hrest := ih hlen'
    have hboth := hfirst.trans hrest
    rw [List.foldl_cons]
    simp only [List.mem_cons, exists_eq_or_imp]
    exact hboth

theorem length_foldl_markMatch (spans : List (ℕ × ℕ)) (inputIds lossMask : List ℤ) :
    (spans.foldl (parser.markMatch text maxLength inputIds) lossMask).length =
      lossMask.length := by
  induction spans generalizing lossMask with
  | nil => rfl
  | cons span spans ih =>
    rw [List.foldl_cons, ih, length_markMatch]

end Mask

/-- **The loss mask covers exactly the assistant turns.**  For a registered template and a
conversation that renders to header, content and end-of-turn string of each message, `parse`
returns a mask as long as the ids, with a 1 where the token is encoded from an assistant's content
behind the loss prefix or from its end-of-turn string, and a 0 elsewhere. -/
theorem parse_spec {J : Type} (jsonLoads : List Char → Option J) (tokenizer : Tokenizer J)
    {name : String} {template : ChatTemplate}
    (htemplate : templateRegistry.get? name = some template) (conversation : List (Message J))
    {messages : List (Message J)} {text : List Char} {turns : List (Block Char)}
    (hmessages : GeneralParser.renderMessages jsonLoads ⟨tokenizer, template⟩ conversation =
      .ok messages)
    (htext : tokenizer.applyChatTemplate messages = .ok text)
    (hrenders : Renders template messages turns text)
    (hlead : ∀ start stop, AssistantSpan template turns text start stop →
      tokenizer.ids (text.take start) <+: tokenizer.ids text ∧
        tokenizer.ids (text.take stop) <+: tokenizer.ids text) (maxLength : ℕ) :
    ∃ record, GeneralParser.parse jsonLoads ⟨tokenizer, template⟩ conversation maxLength =
        .ok record ∧
      record.inputIds = (tokenizer.ids text).take maxLength ∧
      record.lossMask.length = record.inputIds.length ∧
      ∀ i < record.inputIds.length,
        (record.lossMask[i]? = some 1 ↔ ∃ start stop,
          AssistantSpan template turns text start stop ∧
            EncodedFrom tokenizer.ids text start stop i) ∧
        (record.lossMask[i]? = some 0 ∨ record.lossMask[i]? = some 1) := by
  set parser : GeneralParser J := ⟨tokenizer, template⟩ with hparser
  have hmarkers := markers_of_registry htemplate
  have hbody : ∀ turn ∈ turns, turn.opened = true → template.lossPrefix <+: turn.body := by
    intro turn hturn hopened
    obtain ⟨message, hmem, hmessage⟩ := hrenders.exists_message hturn
    exact lossPrefix_prefix hmessages hmem (hmessage.opened.mp hopened) hmessage.content
  have hfound : ∀ start stop, (∃ span ∈ parser.findTurns text,
      start = parser.contentStart text span.1 ∧ stop = span.2) ↔
        AssistantSpan template turns text start stop := fun start stop =>
    exists_findTurns_iff hrenders hmarkers hbody
  have hmarked : ∀ i, (∃ span ∈ parser.findTurns text, Marks parser text span i) ↔
      ∃ start stop, AssistantSpan template turns text start stop ∧
        EncodedFrom tokenizer.ids text start stop i := by
    intro i
    constructor
    · rintro ⟨span, hspan, hmarks⟩
      have hassistant := (hfound _ _).mp ⟨span, hspan, rfl, rfl⟩
      obtain ⟨hstart, hstop⟩ := hlead _ _ hassistant
      exact ⟨_, _, hassistant, (encodedFrom_iff hstart hstop).mpr hmarks⟩
    · rintro ⟨start, stop, hassistant, hencoded⟩
      obtain ⟨hstart, hstop⟩ := hlead start stop hassistant
      obtain ⟨span, hspan, rfl, rfl⟩ := (hfound start stop).mpr hassistant
      exact ⟨span, hspan, (encodedFrom_iff hstart hstop).mp hencoded⟩
  set inputIds := parser.tokenizer.encode text maxLength with hids
  set lossMask := (parser.findTurns text).foldl (parser.markMatch text maxLength inputIds)
    (List.replicate inputIds.length 0) with hmask
  refine ⟨⟨inputIds, List.replicate inputIds.length 1, lossMask⟩, ?_, rfl, ?_, ?_⟩
  · unfold GeneralParser.parse
    rw [bind_of_ok hmessages, bind_of_ok htext]
    rfl
  · rw [hmask, length_foldl_markMatch, List.length_replicate]
  · intro i hi
    have hset : SetWhen (∃ span ∈ parser.findTurns text, Marks parser text span i)
        (List.replicate inputIds.length (0 : ℤ))[i]? lossMask[i]? :=
      setWhen_foldl_markMatch _ List.length_replicate hi
    rw [List.getElem?_replicate_of_lt hi] at hset
    rcases hset with ⟨hP, hone⟩ | ⟨hP, hzero⟩
    · exact ⟨⟨fun _ => (hmarked i).mp hP, fun _ => hone⟩, Or.inr hone⟩
    · refine ⟨⟨fun hone => ?_, fun h => absurd ((hmarked i).mpr h) hP⟩, Or.inl hzero⟩
      rw [hzero] at hone
      exact absurd (Option.some.inj hone) zero_ne_one

/-- The turn the Qwen chat template writes for a message. -/
def qwenTurn (message : Message Unit) : Block Char where
  opened := decide (message.role = "assistant")
  head := "<|im_start|>".toList ++ message.role.toList ++ ['\n']
  body := match message.content with
    | .text content => content
    | .other => []

/-- A tokenizer with a token for each character. -/
def charTokenizer : Tokenizer Unit where
  applyChatTemplate messages :=
    .ok (joined qwenTemplate.endOfTurn (messages.map qwenTurn))
  ids text := text.map fun c => (c.toNat : ℤ)

def greeting : List (Message Unit) :=
  [{ role := "user", content := .text "hi".toList },
    { role := "assistant", content := .text "yo".toList }]

def promptedGreeting : List (Message Unit) :=
  { role := "system", content := .text "You are a helpful assistant.".toList } :: greeting

theorem renders_greeting : Renders qwenTemplate promptedGreeting (promptedGreeting.map qwenTurn)
    (joined qwenTemplate.endOfTurn (promptedGreeting.map qwenTurn)) := by
  refine ⟨?_, Or.inl rfl⟩
  refine .cons ⟨rfl, by decide, ?_⟩ (.cons ⟨rfl, by decide, ?_⟩ (.cons ⟨rfl, by decide, ?_⟩ .nil))
  all_goals constructor <;> decide +kernel

theorem parse_spec_greeting : ∃ record,
    GeneralParser.parse (fun _ => none) ⟨charTokenizer, qwenTemplate⟩ greeting 40 = .ok record ∧
      record.inputIds = (charTokenizer.ids (joined qwenTemplate.endOfTurn
        (promptedGreeting.map qwenTurn))).take 40 ∧
      record.lossMask.length = record.inputIds.length ∧
      ∀ i < record.inputIds.length,
        (record.lossMask[i]? = some 1 ↔ ∃ start stop,
          AssistantSpan qwenTemplate (promptedGreeting.map qwenTurn)
            (joined qwenTemplate.endOfTurn (promptedGreeting.map qwenTurn)) start stop ∧
            EncodedFrom charTokenizer.ids (joined qwenTemplate.endOfTurn
              (promptedGreeting.map qwenTurn)) start stop i) ∧
        (record.lossMask[i]? = some 0 ∨ record.lossMask[i]? = some 1) := by
  have hcut : ∀ (text : List Char) n, charTokenizer.ids (text.take n) <+: charTokenizer.ids text :=
    fun text n => (List.take_prefix n text).map _
  have hregistry : templateRegistry.get? "qwen" = some qwenTemplate := rfl
  exact parse_spec (fun _ => none) charTokenizer hregistry greeting rfl rfl renders_greeting
    (fun start stop _ => ⟨hcut _ start, hcut _ stop⟩) 40

end LatentSpec.ChatParser
