import CodexMemory.Import.Security
import CodexMemory.Lines

/-!
# `parse_document` of `pipelines/v131_import.py`

The parts of a document: for each its heading, its text and where the text
stands.  What reads PDF, DOCX and ZIP files is a parameter.
-/

namespace CodexMemory.Import

open Regex

/-! ## Text -/

/-- `str.strip` -/
def stripChars (s : List Char) : List Char := ((s.dropWhile isSpace).reverse.dropWhile isSpace).reverse

/-- The last component of a path, as `Path(..).name` has it. -/
def nameOf (path : List Char) : List Char :=
  ((path.splitOn '/').filter fun part => part ≠ [] && part ≠ ['.']).getLastD []

/-- `Path(..).suffix.lower().lstrip(".")` -/
def suffixOf (path : String) : String :=
  let name := nameOf path.toList
  let ending := (name.reverse.takeWhile (· ≠ '.')).reverse
  -- the last dot is neither the first nor the last character of the name
  if ending ≠ [] && ending.length + 1 < name.length then lower (String.ofList ending) else ""

def sourceTypeForName (name : String) : String :=
  let suffix := suffixOf name
  if ["md", "markdown"].contains suffix then "markdown"
  else if ["txt", "text"].contains suffix then "text"
  else if ["jsonl", "ndjson"].contains suffix then "jsonl"
  else if suffix = "json" then "json"
  else if suffix = "sql" then "sql"
  else if ["pdf", "docx", "zip"].contains suffix then suffix
  else if ["py", "js", "ts", "tsx", "jsx", "java", "go", "rs", "cs", "cpp", "h", "hpp", "yaml", "yml", "toml", "sh",
      "ps1"].contains suffix then "source"
  else "text"

/-- `SUPPORTED_TYPES` -/
def supportedTypes : List String :=
  ["md", "markdown", "txt", "text", "jsonl", "json", "sql", "source", "code", "pdf", "docx", "zip"]

/-- `text.splitlines(keepends=True)` -/
def keepLines : List Char → List (List Char)
  | [] => []
  | c :: s =>
    if isLineBreak c && !(c = '\r' && s.head? = some '\n') then [c] :: keepLines s
    else
      match keepLines s with
      | [] => [[c]]
      | line :: rest => (c :: line) :: rest

/-! ## Parts -/

/-- A part of a document: `(heading, text, start, end)`. -/
structure Part where
  heading : Option String := none
  text : List Char
  start : Nat
  stop : Nat
  deriving DecidableEq

/-- The part without a heading that stands at a place. -/
def Part.at (text : List Char) (start : Nat) : Part := { text := text, start := start, stop := start + text.length }

/-- `(?=\n\s*\n|\Z)` -/
def blankAhead : Option Char → List Char → Bool
  | _, [] => true
  | _, c :: rest => c = '\n' && (rest.takeWhile isSpace).contains '\n'

/-- `\S[\s\S]*?(?=\n\s*\n|\Z)` -/
def paragraphPattern : Regex :=
  .seq (.char fun c => !isSpace c) (.seq (.lazily (fun _ => true) 0) (.assert blankAhead))

/-- The paragraphs of a text, each with its place. -/
def paragraphs (text : List Char) : List (Nat × List Char) :=
  finditer (fun prev s => (run paragraphPattern prev s).head?.map fun m => (m.1, m.1.length)) none 0 0 text

/-- The pieces of a text of at most `maxChars` characters, each with its place. -/
def cut (maxChars : Nat) (value : List Char) : List (Nat × List Char) :=
  (List.range ((value.length + maxChars - 1) / maxChars)).map fun i =>
    (i * maxChars, (value.drop (i * maxChars)).take maxChars)

/-- The stripped pieces that are not empty. -/
def pieces (maxChars : Nat) (value : List Char) (start : Nat) : List Part :=
  (cut maxChars value).filterMap fun piece =>
    if stripChars piece.2 = [] then none else some (Part.at (stripChars piece.2) (start + piece.1))

def maxPart : Nat := 1600

/-- `_split_bounded` -/
def splitBounded (text : List Char) : List Part :=
  let result := (paragraphs text).flatMap fun paragraph =>
    let value := stripChars paragraph.2
    if value = [] then []
    else
      let start := paragraph.1 + (paragraph.2.length - (paragraph.2.dropWhile isSpace).length)
      if value.length ≤ maxPart then [Part.at value start] else pieces maxPart value start
  if result = [] && stripChars text ≠ [] then pieces maxPart (stripChars text) 0 else result

/-! ## Headings -/

/-- `^` under `(?m)` -/
def lineStart (prev : Option Char) (_ : List Char) : Bool := prev = none || prev = some '\n'

/-- `$` under `(?m)` -/
def lineEnd (_ : Option Char) (rest : List Char) : Bool := rest = [] || rest.head? = some '\n'

/-- `^\s{0,3}(#{1,6})\s+` -/
def headingMark : Regex :=
  .seq (.assert lineStart) (.seq (upTo isSpace 3) (.seq (.char (· = '#')) (.seq (upTo (· = '#') 5) (.many isSpace 1))))

/-- `\s*$` -/
def headingEnd : Regex := .seq (.many isSpace 0) (.assert lineEnd)

/-- The first match of `^\s{0,3}(#{1,6})\s+(.+?)\s*$`: its second group, and its length. -/
def headingAt (prev : Option Char) (s : List Char) : Option (List Char × Nat) :=
  ((run headingMark prev s).flatMap fun mark =>
    (run (.lazily notNewline 1) (lastOr prev mark.1) mark.2).flatMap fun title =>
      (run headingEnd (lastOr prev (mark.1 ++ title.1)) title.2).map fun rest =>
        (title.1, mark.1.length + title.1.length + rest.1.length)).head?

/-- The headings of a text, each with its place. -/
def headings (text : List Char) : List (Nat × List Char) := finditer headingAt none 0 0 text

/-- The parts of the section from a heading to the next one. -/
def sectionParts (content : List Char) (title : List Char) (start stop : Nat) : List Part :=
  let whole := (content.drop start).take (stop - start)
  let value := stripChars whole
  if value = [] then []
  else
    let place := start + (whole.length - (whole.dropWhile isSpace).length)
    let heading := some (String.ofList (stripChars title))
    if value.length ≤ maxPart then [{ Part.at value place with heading := heading }]
    else (splitBounded value).map fun p => { p with heading := heading, start := place + p.start, stop := place + p.stop }

/-- The parts of the sections. -/
def sectionsOf (content : List Char) : List (Nat × List Char) → List Part
  | [] => []
  | (start, title) :: rest =>
    sectionParts content title start ((rest.head?.map Prod.fst).getD content.length) ++ sectionsOf content rest

def parseMarkdown (content : List Char) : List Part :=
  if headings content = [] then splitBounded content
  else if sectionsOf content (headings content) = [] then splitBounded content
  else sectionsOf content (headings content)

/-! ## Files -/

/-- A member of an archive. -/
structure ZipInfo where
  filename : String
  isDir : Bool
  fileSize : Nat
  /-- What `archive.read` gives or raises. -/
  data : Except String ByteArray

/-- What is taken from libraries: `json.loads` with the message of its error, the decoding of Base64
with `validate=True`, the decoding of UTF-8 with replacements, `pypdf` with the texts of the pages where
it is installed, `zipfile` with the members of an archive, and the texts of the paragraphs of a DOCX
document. -/
structure Library where
  jsonError : List Char → Option String
  b64decode : List Char → Option ByteArray
  decodeReplace : ByteArray → List Char
  pdfPages : Option (ByteArray → Except String (List (List Char)))
  openZip : ByteArray → Option (List ZipInfo)
  docxParagraphs : ByteArray → Except String (List (List (List Char)))

section

variable (library : Library)

/-- The parts of a file with one JSON value a line. -/
def parseLines (cursor : Nat) (count : Nat) : List (List Char) → Except String (List Part)
  | [] => .ok []
  | line :: rest =>
    let raw := (line.reverse.dropWhile fun c => c = '\r' || c = '\n').reverse
    if stripChars raw = [] then parseLines (cursor + line.length) count rest
    else
      match library.jsonError raw with
      | some message => .error ("JSONL 第 " ++ toString (count + 1) ++ " 行无效：" ++ message)
      | none =>
        let start := cursor + (raw.length - (raw.dropWhile isSpace).length)
        (parseLines (cursor + line.length) (count + 1) rest).map fun parts => Part.at (stripChars raw) start :: parts

/-- `parse_document` for the formats of text, with the name of the type in lower case. -/
def parseText (content : List Char) (normalized : String) : Except String (List Part) :=
  if normalized = "jsonl" || normalized = "json" then parseLines library 0 0 (keepLines content)
  else if normalized = "markdown" || normalized = "md" then .ok (parseMarkdown content)
  else .ok (splitBounded content)

/-- `_content_bytes` -/
def contentBytes (content : String) : Except String ByteArray :=
  if "base64:".toList.isPrefixOf content.toList then
    match library.b64decode (content.toList.drop 7) with
    | some data => .ok data
    | none => .error "二进制导入内容的 Base64 无效"
  else .ok content.toUTF8

/-- `rb"\(([^()]{2,})\)"` -/
def pdfString : Regex :=
  .seq (.char (· = '(')) (.seq (.many (fun c => c ≠ '(' && c ≠ ')') 2) (.char (· = ')')))

/-- The text of the simple strings of a PDF file. -/
def pdfStrings (data : ByteArray) : List Char :=
  let text := data.toList.map fun b => Char.ofNat b.toNat
  let found := finditer (fun prev s => (run pdfString prev s).head?.map fun m => (m.1, m.1.length)) none 0 0 text
  let values := (found.map fun m => stripChars (m.2.drop 1).dropLast).filter (· ≠ [])
  (values.intersperse ['\n']).flatten

/-- The pages that have a text, each under its number. -/
def pdfParts (pages : List (List Char)) : List Part :=
  (pages.zipIdx 1).filterMap fun page =>
    if stripChars page.1 = [] then none
    else some { Part.at (stripChars page.1) 0 with heading := some ("第 " ++ toString page.2 ++ " 页") }

/-- `_parse_pdf_bytes` without its library, or where that finds no text. -/
def parsePdfStrings (data : ByteArray) : Except String (List Part) :=
  if pdfStrings data = [] then .error "PDF 解析器不可用或文档没有可提取文本" else .ok (splitBounded (pdfStrings data))

/-- `_parse_pdf_bytes` -/
def parsePdfBytes (data : ByteArray) : Except String (List Part) :=
  match library.pdfPages with
  | none => parsePdfStrings data
  | some read =>
    match read data with
    | .error message => .error message
    | .ok pages => if pdfParts pages = [] then parsePdfStrings data else .ok (pdfParts pages)

/-- `_parse_docx_bytes` -/
def parseDocxBytes (data : ByteArray) : Except String (List Part) :=
  match library.openZip data with
  | none => .error "DOCX 压缩包无效"
  | some infos =>
    match infos.reverse.find? fun info => info.filename = "word/document.xml" with
    | none => .error "DOCX 缺少 word/document.xml"
    | some info =>
      match info.data with
      | .error message => .error message
      | .ok xml =>
        match library.docxParagraphs xml with
        | .error message => .error message
        | .ok nodes =>
          let values := (nodes.map fun texts => stripChars texts.flatten).filter (· ≠ [])
          .ok (splitBounded (values.intersperse ['\n', '\n']).flatten)

/-- `_safe_zip_name`: the name is refused. -/
def unsafeZipName (name : String) : Bool :=
  let normalized := name.toList.map fun c => if c = '\\' then '/' else c
  let parts := (normalized.splitOn '/').filter fun part => part ≠ [] && part ≠ ['.']
  normalized.head? = some '/' || parts.head? = some [':'] || parts.contains ['.', '.']

def maxZipFiles : Nat := 1000
def maxZipUncompressedBytes : Nat := 32 * 1024 * 1024
def maxZipMemberBytes : Nat := 8 * 1024 * 1024
def maxZipDepth : Nat := 3

/-- The parts of the members, one after the other; `parseMember` parses one of a type. -/
def parseMembers (parseMember : String → ByteArray → Except String (List Part)) (total : Nat) :
    List ZipInfo → Except String (List Part)
  | [] => .ok []
  | info :: rest =>
    if unsafeZipName info.filename then .error ("ZIP 成员路径不安全：" ++ info.filename)
    else if maxZipMemberBytes < info.fileSize then .error ("ZIP 成员超过大小限制：" ++ info.filename)
    else if maxZipUncompressedBytes < total + info.fileSize then .error "ZIP 解压总大小超过限制"
    else if !supportedTypes.contains (suffixOf info.filename) then
      parseMembers parseMember (total + info.fileSize) rest
    else
      match info.data with
      | .error message => .error message
      | .ok data =>
        match parseMember (sourceTypeForName info.filename) data with
        | .error message => .error message
        | .ok parts =>
          (parseMembers parseMember (total + info.fileSize) rest).map fun others =>
            parts.map (fun p => { p with heading := some (match p.heading with
              | some heading => if heading = "" then info.filename else info.filename ++ ": " ++ heading
              | none => info.filename) }) ++ others

/-- `_parse_zip_bytes`, with the number of levels that are left. -/
def parseZipBytes : Nat → ByteArray → Except String (List Part)
  | 0, _ => .error "ZIP 嵌套层级超过限制"
  | levels + 1, data =>
    match library.openZip data with
    | none => .error "ZIP 压缩包无效"
    | some all =>
      let infos := all.filter fun info => !info.isDir
      if maxZipFiles < infos.length then .error "ZIP 文件数量超过限制"
      else
        let parseMember := fun (memberType : String) (member : ByteArray) =>
          if memberType = "zip" then parseZipBytes levels member
          else if memberType = "pdf" then parsePdfBytes library member
          else if memberType = "docx" then parseDocxBytes library member
          else parseText library (library.decodeReplace member) memberType
        match parseMembers parseMember 0 infos with
        | .error message => .error message
        | .ok result => if result = [] then .error "ZIP 中没有可支持的导入文件" else .ok result

/-- `parse_document` -/
def parseDocument (content sourceType : String) : Except String (List Part) :=
  let normalized := lower sourceType
  if normalized = "pdf" || normalized = "docx" || normalized = "zip" then
    match contentBytes library content with
    | .error message => .error message
    | .ok data =>
      if normalized = "pdf" then parsePdfBytes library data
      else if normalized = "docx" then parseDocxBytes library data
      else parseZipBytes library (maxZipDepth + 1) data
  else if !supportedTypes.contains normalized then .error ("不支持的导入格式：" ++ sourceType)
  else parseText library content.toList normalized

end

end CodexMemory.Import
