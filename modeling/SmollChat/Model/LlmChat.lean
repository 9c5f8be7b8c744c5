import SmollChat.Model.Engine
import SmollChat.Library.Mealy
import SmollChat.Library.StdString

/-! # Chat templates

`llama-chat.cpp`: the kinds of chat templates, their detection from the text of a model's
template and the rendering of a conversation. The branches of `llm_chat_apply_template` that
loop over the messages once are values of `Branch`. -/

namespace SmollChat

/-- `llm_chat_template` -/
inductive LlmChatTemplate where
  | chatml
  | llama2
  | llama2Sys
  | llama2SysBos
  | llama2SysStrip
  | mistralV1
  | mistralV3
  | mistralV3Tekken
  | mistralV7
  | mistralV7Tekken
  | phi3
  | phi4
  | falcon3
  | zephyr
  | monarch
  | gemma
  | orion
  | openchat
  | vicuna
  | vicunaOrca
  | deepseek
  | deepseek2
  | deepseek3
  | commandR
  | llama3
  | chatglm3
  | chatglm4
  | glmedge
  | minicpm
  | exaone3
  | rwkvWorld
  | granite
  | gigachat
  | megrez
  | yandex
  | bailing
  | llama4
  | smolvlm
  | dots1
  | unknown
  deriving DecidableEq

namespace LlmChatTemplate

/-- `LLM_CHAT_TEMPLATES` -/
def builtin : List (String × LlmChatTemplate) :=
  [("chatml", chatml), ("llama2", llama2), ("llama2-sys", llama2Sys),
    ("llama2-sys-bos", llama2SysBos), ("llama2-sys-strip", llama2SysStrip),
    ("mistral-v1", mistralV1), ("mistral-v3", mistralV3), ("mistral-v3-tekken", mistralV3Tekken),
    ("mistral-v7", mistralV7), ("mistral-v7-tekken", mistralV7Tekken), ("phi3", phi3),
    ("phi4", phi4), ("falcon3", falcon3), ("zephyr", zephyr), ("monarch", monarch),
    ("gemma", gemma), ("orion", orion), ("openchat", openchat), ("vicuna", vicuna),
    ("vicuna-orca", vicunaOrca), ("deepseek", deepseek), ("deepseek2", deepseek2),
    ("deepseek3", deepseek3), ("command-r", commandR), ("llama3", llama3),
    ("chatglm3", chatglm3), ("chatglm4", chatglm4), ("glmedge", glmedge), ("minicpm", minicpm),
    ("exaone3", exaone3), ("rwkv-world", rwkvWorld), ("granite", granite),
    ("gigachat", gigachat), ("megrez", megrez), ("yandex", yandex), ("bailing", bailing),
    ("llama4", llama4), ("smolvlm", smolvlm)]

/-- `llm_chat_template_from_str`; `none` where it throws. -/
def fromStr (name : Bytes) : Option LlmChatTemplate :=
  (builtin.find? fun e => ascii e.1 = name).map Prod.snd

/-- The heuristics of `llm_chat_detect_template`, for a text that is no built-in name. -/
def detectText (tmpl : Bytes) : LlmChatTemplate :=
  let contains (haystack : String) : Bool := (StdString.find (ascii haystack) tmpl).isSome
  if contains "<|im_start|>" then
    if contains "<|im_sep|>" then phi4
    else if contains "<end_of_utterance>" then smolvlm
    else chatml
  else if StdString.find (ascii "mistral") tmpl = some 0 ∨ contains "[INST]" then
    if contains "[SYSTEM_PROMPT]" then mistralV7
    else if contains "' [INST] ' + system_message" ∨ contains "[AVAILABLE_TOOLS]" then
      if contains " [INST]" then mistralV1
      else if contains "\"[INST]\"" then mistralV3Tekken
      else mistralV3
    else if contains "content.strip()" then llama2SysStrip
    else if contains "bos_token + '[INST]" then llama2SysBos
    else if contains "<<SYS>>" then llama2Sys
    else llama2
  else if contains "<|assistant|>" ∧ contains "<|end|>" then phi3
  else if contains "[gMASK]<sop>" then chatglm4
  else if contains "<|assistant|>" ∧ contains "<|user|>" then
    if contains "</s>" then falcon3 else glmedge
  else if contains "<|\x7b\x7b item['role'] \x7d\x7d|>" ∧ contains "<|begin_of_image|>" then glmedge
  else if contains "<|user|>" ∧ contains "<|endoftext|>" then zephyr
  else if contains "bos_token + message['role']" then monarch
  else if contains "<start_of_turn>" then gemma
  else if contains "'\\n\\nAssistant: ' + eos_token" then orion
  else if contains "GPT4 Correct " then openchat
  else if contains "USER: " ∧ contains "ASSISTANT: " then
    if contains "SYSTEM: " then vicunaOrca else vicuna
  else if contains "### Instruction:" ∧ contains "<|EOT|>" then deepseek
  else if contains "<|START_OF_TURN_TOKEN|>" ∧ contains "<|USER_TOKEN|>" then commandR
  else if contains "<|start_header_id|>" ∧ contains "<|end_header_id|>" then llama3
  else if contains "[gMASK]sop" then chatglm3
  else if contains "<用户>" then minicpm
  else if contains "'Assistant: ' + message['content'] + eos_token" then deepseek2
  else if contains "<｜Assistant｜>" ∧ contains "<｜User｜>" ∧ contains "<｜end▁of▁sentence｜>" then
    deepseek3
  else if contains "[|system|]" ∧ contains "[|assistant|]" ∧ contains "[|endofturn|]" then exaone3
  else if contains "rwkv-world" then rwkvWorld
  else if contains "<|start_of_role|>" then granite
  else if contains ("message['role'] + additional_special_tokens[0] + message['content'] + " ++
      "additional_special_tokens[1]") then gigachat
  else if contains "<|role_start|>" then megrez
  else if contains " Ассистент:" then yandex
  else if contains "<role>ASSISTANT</role>" ∧ contains "'HUMAN'" then bailing
  else if contains "<|header_start|>" ∧ contains "<|header_end|>" then llama4
  else if contains "<|endofuserprompt|>" then dots1
  else unknown

/-- `llm_chat_detect_template` -/
def detect (tmpl : Bytes) : LlmChatTemplate := (fromStr tmpl).getD (detectText tmpl)

end LlmChatTemplate

/-! ## Strings -/

/-- `isspace` -/
def isspace (b : UInt8) : Bool := b = 32 || (9 ≤ b && b ≤ 13)

/-- `toupper` -/
def toupper (b : UInt8) : UInt8 := if 97 ≤ b ∧ b ≤ 122 then b - 32 else b

theorem toupper_ne_zero {b : UInt8} (hb : b ≠ 0) : toupper b ≠ 0 := by
  rw [toupper]
  split_ifs with h
  · have h97 := UInt8.le_iff_toNat_le.mp h.1
    intro h0
    have hval := congrArg UInt8.toNat h0
    rw [UInt8.toNat_sub_of_le _ _ (UInt8.le_iff_toNat_le.mpr (by
      have : (32 : UInt8).toNat = 32 := rfl
      have : (97 : UInt8).toNat = 97 := rfl
      omega))] at hval
    have : (32 : UInt8).toNat = 32 := rfl
    have : (97 : UInt8).toNat = 97 := rfl
    have : (0 : UInt8).toNat = 0 := rfl
    omega
  · exact hb

namespace CString

/-- `trim` -/
def trim (s : CString) : CString where
  bytes := (s.bytes.dropWhile isspace).rdropWhile isspace
  nul_free h := s.nul_free
    ((List.dropWhile_suffix _).mem ((List.rdropWhile_prefix _ _).mem h))

/-- `toupper` on every byte -/
def upper (s : CString) : CString where
  bytes := s.bytes.map toupper
  nul_free h := by
    obtain ⟨b, hb, h0⟩ := List.mem_map.mp h
    exact toupper_ne_zero (fun hb0 => s.nul_free (hb0 ▸ hb)) h0

/-- `toupper` on the first byte -/
def upperFirst (s : CString) : CString where
  bytes := s.bytes.take 1 |>.map toupper |>.append (s.bytes.drop 1)
  nul_free h := by
    rcases List.mem_append.mp h with h | h
    · obtain ⟨b, hb, h0⟩ := List.mem_map.mp h
      exact toupper_ne_zero (fun hb0 => s.nul_free (hb0 ▸ List.mem_of_mem_take hb)) h0
    · exact s.nul_free (List.mem_of_mem_drop h)

end CString

/-! ## Rendering -/

/-- The variables that the loops of `llm_chat_apply_template` keep between two messages;
`first` says that no message was treated yet. -/
structure ChatLocals where
  isInsideTurn : Bool
  systemPrompt : CString
  first : Bool
  deriving DecidableEq

/-- A branch of `llm_chat_apply_template`: the text before the loop, the variables of the loop,
what it writes for a message, and the text for `add_ass`. -/
structure Branch where
  opening : CString
  locals : ChatLocals
  step : ChatLocals → Message → ChatLocals × CString
  header : CString

namespace Branch

/-- The text that a branch writes. -/
def render (B : Branch) (chat : List Message) (addAss : Bool) : CString :=
  B.opening ++ CString.concat (Mealy.outputs B.step B.locals chat) ++
    if addAss then B.header else .empty

def initial : ChatLocals := ⟨false, .empty, true⟩

/-- A loop that treats every message alike. -/
def each (opening : CString) (chunk : Message → CString) (header : CString) : Branch where
  opening := opening
  locals := initial
  step l m := (l, chunk m)
  header := header

/-- A chunk that names the role of the message. -/
def tagged (before between after : CString) (m : Message) : CString :=
  before ++ m.role ++ between ++ m.content ++ after

/-- A chunk by role, for the roles `system`, `user` and `assistant`, and for any other. -/
def byRole (system user assistant other : CString → CString) (m : Message) : CString :=
  if m.role = .lit "system" then system m.content
  else if m.role = .lit "user" then user m.content
  else if m.role = .lit "assistant" then assistant m.content
  else other m.content

/-- A content between two texts. -/
def wrap (before after content : CString) : CString := before ++ content ++ after

/-- Nothing is written. -/
def skip (_ : CString) : CString := .empty

/-- `MISTRAL_V7`, `MISTRAL_V7_TEKKEN` -/
def mistralV7 (trailingSpace : CString) : Branch :=
  each .empty (byRole (wrap (.lit "[SYSTEM_PROMPT]" ++ trailingSpace) (.lit "[/SYSTEM_PROMPT]"))
    (wrap (.lit "[INST]" ++ trailingSpace) (.lit "[/INST]")) (wrap trailingSpace (.lit "</s>"))
    (wrap trailingSpace (.lit "</s>"))) .empty

/-- `MISTRAL_V1`, `MISTRAL_V3`, `MISTRAL_V3_TEKKEN` -/
def mistral (leadingSpace trailingSpace : CString) (trimAssistantMessage : Bool) : Branch where
  opening := .empty
  locals := { initial with isInsideTurn := false }
  step l m :=
    let turn := if !l.isInsideTurn then leadingSpace ++ .lit "[INST]" ++ trailingSpace else .empty
    if m.role = .lit "system" then
      ({ l with isInsideTurn := true }, turn ++ (m.content ++ .lit "\n\n"))
    else if m.role = .lit "user" then
      ({ l with isInsideTurn := true }, turn ++ (m.content ++ leadingSpace ++ .lit "[/INST]"))
    else
      let content := if trimAssistantMessage then m.content.trim else m.content
      ({ l with isInsideTurn := false }, turn ++ (trailingSpace ++ content ++ .lit "</s>"))
  header := .empty

/-- `LLAMA_2` and its variants -/
def llama2 (supportSystemMessage addBosInsideHistory stripMessage : Bool) : Branch where
  opening := .lit "[INST] "
  locals := { initial with isInsideTurn := true }
  step l m :=
    let content := if stripMessage then m.content.trim else m.content
    let turn :=
      if !l.isInsideTurn then
        if addBosInsideHistory then .lit "<s>[INST] " else .lit "[INST] "
      else .empty
    if m.role = .lit "system" then
      ({ l with isInsideTurn := true }, turn ++
        if supportSystemMessage then .lit "<<SYS>>\n" ++ content ++ .lit "\n<</SYS>>\n\n"
        else content ++ .lit "\n")
    else if m.role = .lit "user" then
      ({ l with isInsideTurn := true }, turn ++ (content ++ .lit " [/INST]"))
    else ({ l with isInsideTurn := false }, turn ++ (content ++ .lit "</s>"))
  header := .empty

/-- `MONARCH` -/
def monarch : Branch where
  opening := .empty
  locals := initial
  step l m :=
    ({ l with first := false }, (if l.first then .empty else .lit "<s>") ++
      (m.role ++ .lit "\n" ++ m.content ++ .lit "</s>\n"))
  header := .lit "<s>assistant\n"

/-- The collected system prompt in front of a user message. -/
def merged (systemPrompt : CString) : CString :=
  if systemPrompt.isEmpty then .empty else systemPrompt ++ .lit "\n\n"

/-- `GEMMA` -/
def gemma : Branch where
  opening := .empty
  locals := initial
  step l m :=
    if m.role = .lit "system" then
      ({ l with systemPrompt := l.systemPrompt ++ m.content.trim }, .empty)
    else
      let role := if m.role = .lit "assistant" then .lit "model" else m.role
      if role = .lit "model" then
        (l, .lit "<start_of_turn>" ++ role ++ .lit "\n" ++ (m.content.trim ++
          .lit "<end_of_turn>\n"))
      else
        ({ l with systemPrompt := .empty }, .lit "<start_of_turn>" ++ role ++ .lit "\n" ++
          (merged l.systemPrompt ++ (m.content.trim ++ .lit "<end_of_turn>\n")))
  header := .lit "<start_of_turn>model\n"

/-- `ORION` -/
def orion : Branch where
  opening := .empty
  locals := initial
  step l m :=
    if m.role = .lit "system" then
      ({ l with systemPrompt := l.systemPrompt ++ m.content }, .empty)
    else if m.role = .lit "user" then
      ({ l with systemPrompt := .empty }, .lit "Human: " ++
        (merged l.systemPrompt ++ (m.content ++ .lit "\n\nAssistant: </s>")))
    else (l, m.content ++ .lit "</s>")
  header := .empty

/-- `OPENCHAT` -/
def openchat (m : Message) : CString :=
  if m.role = .lit "system" then m.content ++ .lit "<|end_of_turn|>"
  else .lit "GPT4 Correct " ++ m.role.upperFirst ++ .lit ": " ++ m.content ++
    .lit "<|end_of_turn|>"

/-- `VICUNA`, `VICUNA_ORCA` -/
def vicuna (before after : CString) : Branch :=
  each .empty (byRole (wrap before after) (wrap (.lit "USER: ") (.lit "\n"))
    (wrap (.lit "ASSISTANT: ") (.lit "</s>\n")) skip) (.lit "ASSISTANT:")

/-- A content trimmed, between two texts. -/
def wrapTrim (before after content : CString) : CString := wrap before after content.trim

/-- `GRANITE` -/
def granite (m : Message) : CString :=
  .lit "<|start_of_role|>" ++ m.role ++ .lit "<|end_of_role|>" ++
    (if m.role = .lit "assistant_tool_call" then .lit "<|tool_call|>" else .empty) ++ m.content ++
      .lit "<|end_of_text|>\n"

/-- `GIGACHAT` -/
def gigachat : Branch where
  opening := .lit "<s>"
  locals := initial
  step l m :=
    ({ l with first := false },
      if l.first && m.role = .lit "system" then m.content ++ .lit "<|message_sep|>"
      else if m.role = .lit "user" then
        .lit "user<|role_sep|>" ++ m.content ++
          .lit "<|message_sep|>available functions<|role_sep|>[]<|message_sep|>"
      else if m.role = .lit "assistant" then
        .lit "assistant<|role_sep|>" ++ m.content ++ .lit "<|message_sep|>"
      else .empty)
  header := .lit "assistant<|role_sep|>"

/-- `BAILING` -/
def bailing (m : Message) : CString :=
  .lit "<role>" ++ (if m.role = .lit "user" then .lit "HUMAN" else m.role.upper) ++
    .lit "</role>" ++ m.content

end Branch

namespace LlmChatTemplate

open Branch

/-- The branch of `llm_chat_apply_template` for a kind. `rwkvWorld` looks ahead in the list and
has its own definition. -/
def branch : LlmChatTemplate → Option Branch
  | chatml => some (each .empty (tagged (.lit "<|im_start|>") (.lit "\n") (.lit "<|im_end|>\n"))
      (.lit "<|im_start|>assistant\n"))
  | mistralV7 => some (Branch.mistralV7 (.lit " "))
  | mistralV7Tekken => some (Branch.mistralV7 .empty)
  | mistralV1 => some (mistral (.lit " ") (.lit " ") false)
  | mistralV3 => some (mistral .empty (.lit " ") true)
  | mistralV3Tekken => some (mistral .empty .empty false)
  | llama2 => some (Branch.llama2 false false false)
  | llama2Sys => some (Branch.llama2 true false false)
  | llama2SysBos => some (Branch.llama2 true true false)
  | llama2SysStrip => some (Branch.llama2 true false true)
  | phi3 => some (each .empty (tagged (.lit "<|") (.lit "|>\n") (.lit "<|end|>\n"))
      (.lit "<|assistant|>\n"))
  | phi4 => some (each .empty (tagged (.lit "<|im_start|>") (.lit "<|im_sep|>") (.lit "<|im_end|>"))
      (.lit "<|im_start|>assistant<|im_sep|>"))
  | falcon3 => some (each .empty (tagged (.lit "<|") (.lit "|>\n") (.lit "\n"))
      (.lit "<|assistant|>\n"))
  | zephyr => some (each .empty (tagged (.lit "<|") (.lit "|>\n") (.lit "<|endoftext|>\n"))
      (.lit "<|assistant|>\n"))
  | monarch => some Branch.monarch
  | gemma => some Branch.gemma
  | orion => some Branch.orion
  | openchat => some (each .empty Branch.openchat (.lit "GPT4 Correct Assistant:"))
  | vicuna => some (Branch.vicuna .empty (.lit "\n\n"))
  | vicunaOrca => some (Branch.vicuna (.lit "SYSTEM: ") (.lit "\n"))
  | deepseek => some (each .empty (byRole (wrap .empty .empty)
      (wrap (.lit "### Instruction:\n") (.lit "\n"))
      (wrap (.lit "### Response:\n") (.lit "\n<|EOT|>\n")) skip) (.lit "### Response:\n"))
  | commandR => some (each .empty (byRole
      (wrapTrim (.lit "<|START_OF_TURN_TOKEN|><|SYSTEM_TOKEN|>") (.lit "<|END_OF_TURN_TOKEN|>"))
      (wrapTrim (.lit "<|START_OF_TURN_TOKEN|><|USER_TOKEN|>") (.lit "<|END_OF_TURN_TOKEN|>"))
      (wrapTrim (.lit "<|START_OF_TURN_TOKEN|><|CHATBOT_TOKEN|>") (.lit "<|END_OF_TURN_TOKEN|>"))
      skip) (.lit "<|START_OF_TURN_TOKEN|><|CHATBOT_TOKEN|>"))
  | llama3 => some (each .empty (fun m => tagged (.lit "<|start_header_id|>")
      (.lit "<|end_header_id|>\n\n") (.lit "<|eot_id|>") { m with content := m.content.trim })
      (.lit "<|start_header_id|>assistant<|end_header_id|>\n\n"))
  | chatglm3 => some (each (.lit "[gMASK]sop") (tagged (.lit "<|") (.lit "|>\n ") .empty)
      (.lit "<|assistant|>"))
  | chatglm4 => some (each (.lit "[gMASK]<sop>") (tagged (.lit "<|") (.lit "|>\n") .empty)
      (.lit "<|assistant|>\n"))
  | glmedge => some (each .empty (tagged (.lit "<|") (.lit "|>\n") .empty) (.lit "<|assistant|>"))
  | minicpm => some (each .empty (byRole (wrapTrim .empty .empty)
      (wrapTrim (.lit "<用户>") (.lit "<AI>")) (wrapTrim .empty .empty) (wrapTrim .empty .empty))
      .empty)
  | deepseek2 => some (each .empty (byRole (wrap .empty (.lit "\n\n"))
      (wrap (.lit "User: ") (.lit "\n\n"))
      (wrap (.lit "Assistant: ") (.lit "<｜end▁of▁sentence｜>")) skip) (.lit "Assistant:"))
  | deepseek3 => some (each .empty (byRole (wrap .empty (.lit "\n\n"))
      (wrap (.lit "<｜User｜>") .empty)
      (wrap (.lit "<｜Assistant｜>") (.lit "<｜end▁of▁sentence｜>")) skip) (.lit "<｜Assistant｜>"))
  | exaone3 => some (each .empty (byRole (wrapTrim (.lit "[|system|]") (.lit "[|endofturn|]\n"))
      (wrapTrim (.lit "[|user|]") (.lit "\n"))
      (wrapTrim (.lit "[|assistant|]") (.lit "[|endofturn|]\n")) skip) (.lit "[|assistant|]"))
  | granite => some (each .empty Branch.granite
      (.lit "<|start_of_role|>assistant<|end_of_role|>\n"))
  | gigachat => some Branch.gigachat
  | megrez => some (each .empty
      (tagged (.lit "<|role_start|>") (.lit "<|role_end|>") (.lit "<|turn_end|>"))
      (.lit "<|role_start|>assistant<|role_end|>"))
  | yandex => some (each (.lit "<s>") (byRole skip (wrap (.lit " Пользователь: ") (.lit "\n\n"))
      (wrap (.lit " Ассистент: ") (.lit "\n\n")) skip) (.lit " Ассистент:[SEP]"))
  | bailing => some (each .empty Branch.bailing (.lit "<role>ASSISTANT</role>"))
  | llama4 => some (each .empty (fun m => tagged (.lit "<|header_start|>")
      (.lit "<|header_end|>\n\n") (.lit "<|eot|>") { m with content := m.content.trim })
      (.lit "<|header_start|>assistant<|header_end|>\n\n"))
  | smolvlm => some (each (.lit "<|im_start|>") (byRole (wrap .empty (.lit "\n\n"))
      (wrap (.lit "User: ") (.lit "<end_of_utterance>\n"))
      (wrap (.lit "Assistant: ") (.lit "<end_of_utterance>\n"))
      (wrap (.lit "Assistant: ") (.lit "<end_of_utterance>\n"))) (.lit "Assistant:"))
  | dots1 => some (each .empty (byRole (wrap (.lit "<|system|>") (.lit "<|endofsystem|>"))
      (wrap (.lit "<|userprompt|>") (.lit "<|endofuserprompt|>"))
      (wrap (.lit "<|response|>") (.lit "<|endofresponse|>"))
      (wrap (.lit "<|response|>") (.lit "<|endofresponse|>"))) (.lit "<|response|>"))
  | rwkvWorld | unknown => none

/-- The branch for `RWKV_WORLD`: the last message, if it is the user's, opens the reply. -/
def renderRwkvWorld : List Message → CString
  | [] => .empty
  | m :: rest =>
      byRole (wrapTrim (.lit "System: ") (.lit "\n\n"))
        (fun content => wrapTrim (.lit "User: ") (.lit "\n\n") content ++
          if rest = [] then .lit "Assistant:" else .empty)
        (wrapTrim (.lit "Assistant: ") (.lit "\n\n")) skip m ++ renderRwkvWorld rest

/-- `llm_chat_apply_template`; `none` for a negative length. -/
def apply (kind : LlmChatTemplate) (chat : List Message) (addAss : Bool) : Option CString :=
  if kind = rwkvWorld then some (renderRwkvWorld chat)
  else kind.branch.map fun B => B.render chat addAss

end LlmChatTemplate

/-- `llama_chat_apply_template` on the text of a model's template, without the copy into the
buffer. -/
def llamaChatApplyTemplate (tmpl : CString) : Template := fun messages addAss =>
  ((LlmChatTemplate.detect tmpl.bytes).apply messages addAss).map CString.bytes

end SmollChat
