import LegalRag.Api.Calls

/-!
# Prompt assembly

`src/agent/prompts.py`: the system message with the rules, the summary, the facts about the user and the
retrieved documents, then the history, then the question.
-/

namespace LegalRag

/-- `SYSTEM_ANSWER`. -/
def systemAnswer : String :=
  "Bạn là trợ lý AI chuyên trả lời câu hỏi dựa trên TÀI LIỆU được cung cấp.\n\n" ++
  "QUY TẮC:\n" ++
  "1. Chỉ trả lời dựa trên TÀI LIỆU bên dưới. Nếu thông tin không có hoặc không đủ,\n" ++
  "   nói rõ \"Tôi không có thông tin về vấn đề này trong tài liệu được cung cấp.\"\n" ++
  "   KHÔNG bịa thông tin.\n" ++
  "2. Khi trích dẫn, dùng cú pháp [#1], [#2]... tương ứng số thứ tự đoạn trong TÀI LIỆU.\n" ++
  "3. Trả lời ngắn gọn, đúng trọng tâm. Ưu tiên tiếng Việt rõ ràng.\n" ++
  "4. Với câu hỏi pháp lý: nêu rõ điều/khoản/văn bản nếu có trong tài liệu.\n" ++
  "5. Nếu user hỏi tiếp với \"đó\", \"vấn đề trên\"..., dùng NGỮ CẢNH HỘI THOẠI để hiểu.\n\n" ++
  "NGỮ CẢNH NGƯỜI DÙNG (nếu có): nhớ vai trò / sở thích đã ghi nhận để cá nhân hoá."

/-- The page of a chunk in the prompt; no page, or page 0, is not shown. -/
def pageLabel (pageFrom pageTo : Option Nat) : String :=
  match pageFrom.filter (· ≠ 0) with
  | none => ""
  | some p =>
    match pageTo.filter (fun q => q ≠ 0 ∧ q ≠ p) with
    | some q => ", tr." ++ toString p ++ "–" ++ toString q
    | none => ", tr." ++ toString p

/-- One numbered chunk of the prompt. -/
def contextPart (i : Nat) (r : RetrievedDoc) : String :=
  "[#" ++ toString i ++ "] " ++ orText r.headingPath (orText (some r.docTitle) "Tài liệu") ++
    pageLabel r.pageFrom r.pageTo ++ "\n" ++ r.text

/-- `format_context`. -/
def formatContext (retrieved : List RetrievedDoc) : String :=
  if retrieved.isEmpty then "(Không có tài liệu liên quan)"
  else "\n\n---\n\n".intercalate (retrieved.mapIdx fun i r => contextPart (i + 1) r)

/-- `str(v)` of an optional text. -/
def pyStr (v : Option String) : String := v.getD "None"

/-- `format_facts`. -/
def formatFacts (facts : List Fact) : String :=
  if facts.isEmpty then ""
  else "NGỮ CẢNH NGƯỜI DÙNG:\n" ++
    "\n".intercalate (facts.map fun f => "- " ++ pyStr f.key ++ ": " ++ pyStr f.value)

/-- The parts of the system message. -/
def systemParts (summary : Option String) (facts : List Fact) (retrieved : List RetrievedDoc) : List String :=
  let fa := formatFacts facts
  [systemAnswer] ++
    (match summary.filter (fun s => ¬ s.isEmpty) with
      | some s => ["\nTÓM TẮT HỘI THOẠI TRƯỚC ĐÓ:\n" ++ s]
      | none => []) ++
    (if fa.isEmpty then [] else ["\n" ++ fa]) ++
    ["\n\nTÀI LIỆU:\n" ++ formatContext retrieved]

/-- `build_answer_messages`. -/
def buildAnswerMessages (userMessage : String) (history : List ChatMessage) (summary : Option String)
    (facts : List Fact) (retrieved : List RetrievedDoc) : List ChatMessage :=
  ⟨.system, "\n".intercalate (systemParts summary facts retrieved)⟩ :: (history ++ [⟨.user, userMessage⟩])

end LegalRag
