import LegalRag.Text.Strings

/-!
# Parsed documents

`ParseResult` of `src/ingestion/parsers/base.py` and `parse_pdf` of `src/ingestion/parsers/pdf.py`, given
the text that PyMuPDF returns for each page.
-/

namespace LegalRag

structure ParsedPage where
  pageNumber : Nat
  text : String
  deriving DecidableEq, Repr

structure ParseResult where
  pages : List ParsedPage
  markdown : String
  deriving DecidableEq, Repr

/-- `text.strip()`. -/
def stripText (text : String) : String := .ofList (PyStr.strip id text.toList)

/-- The pages from the page with index `i` on. -/
def pagesFrom : Nat → List String → List ParsedPage
  | _, [] => []
  | i, text :: texts => ⟨i + 1, stripText text⟩ :: pagesFrom (i + 1) texts

/-- The part of the markdown that a page contributes. -/
def ParsedPage.part (p : ParsedPage) : List Char :=
  ("## [Page " ++ toString p.pageNumber ++ "]\n\n").toList ++ p.text.toList

/-- `parse_pdf`, from the texts of the pages. -/
def parsePdf (texts : List String) : ParseResult where
  pages := pagesFrom 0 texts
  markdown :=
    .ofList (PyStr.join "\n\n".toList
    (((pagesFrom 0 texts).filter fun p => p.text ≠ "").map ParsedPage.part))

end LegalRag
