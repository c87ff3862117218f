import Mathlib
import Sharko.Script.WebApi.Multipart

/-! The three encoders of multipart bodies: that of the script layer for a `FormData`, that of
the submission planner (`forms.rs`) and that of the network provider (`provider.rs`). -/

namespace Sharko.Forms.Encoders

open Library Script.TextDecoding Script.WebApi

inductive Entry where
  | text (name value : List Char)
  | emptyFile (name : List Char)
  deriving DecidableEq

def replace (c : Char) (by_ : List Char) (s : List Char) : List Char :=
  s.flatMap fun d => if d = c then by_ else [d]

def replaceCrlf : List Char → List Char
  | [] => []
  | [c] => [c]
  | c :: d :: rest =>
    if c = '\r' ∧ d = '\n' then '\n' :: replaceCrlf rest else c :: replaceCrlf (d :: rest)

def normalizeNewlines (s : List Char) : List Char :=
  if '\r' ∈ s then replace '\r' ['\n'] (replaceCrlf s) else s

def crlf (s : List Char) : List Char :=
  if '\n' ∈ normalizeNewlines s then replace '\n' ['\r','\n'] (normalizeNewlines s) else normalizeNewlines s

def escapeMp (s : List Char) : List Char :=
  replace '\n' "%0A".toList (replace '\r' "%0D".toList (replace '"' "%22".toList s))

def planPart (boundary : List Char) (e : Entry) : Bytes :=
  bytesOf ("--".toList ++ boundary ++ "\r\n".toList) ++
    (match e with
    | .text n v =>
      bytesOf ("Content-Disposition: form-data; name=\"".toList ++ escapeMp (crlf n) ++ "\"\r\n\r\n".toList) ++
        bytesOf (crlf v)
    | .emptyFile n =>
      bytesOf ("Content-Disposition: form-data; name=\"".toList ++ escapeMp (crlf n) ++
        "\"; filename=\"\"\r\nContent-Type: application/octet-stream\r\n\r\n".toList)) ++
    bytesOf "\r\n".toList

def planBody (boundary : List Char) (entries : List Entry) : Bytes :=
  entries.flatMap (planPart boundary) ++ bytesOf ("--".toList ++ boundary ++ "--\r\n".toList)

inductive EntryValue where
  | string (value : List Char)
  | file (fileName : Option (List Char)) (mime : Option (List Char)) (data : Option Bytes)
  | emptyFile

def escapeMultipartName (s : List Char) : List Char :=
  replace '\n' "%0A".toList (replace '\r' "%0D".toList (replace '"' "%22".toList s))

def encodePart (boundary : List Char) (entry : List Char × EntryValue) : Bytes :=
  let name := escapeMultipartName entry.1
  bytesOf ("--".toList ++ boundary ++ "\r\n".toList) ++
    (match entry.2 with
    | .string value =>
      bytesOf ("Content-Disposition: form-data; name=\"".toList ++ name ++ "\"\r\n\r\n".toList) ++
        bytesOf (replace '\n' ['\r','\n'] (replaceCrlf value))
    | .file fileName mime data =>
      bytesOf ("Content-Disposition: form-data; name=\"".toList ++ name ++ "\"; filename=\"".toList ++
        (fileName.map escapeMultipartName).getD [] ++ "\"\r\nContent-Type: ".toList ++
        mime.getD "application/octet-stream".toList ++ "\r\n\r\n".toList) ++ data.getD []
    | .emptyFile =>
      bytesOf ("Content-Disposition: form-data; name=\"".toList ++ name ++
        "\"; filename=\"\"\r\nContent-Type: application/octet-stream\r\n\r\n".toList)) ++
    bytesOf "\r\n".toList

def encodeFormBody (boundary : List Char) (form : List (List Char × EntryValue)) : Bytes :=
  form.flatMap (encodePart boundary) ++ bytesOf ("--".toList ++ boundary ++ "--\r\n".toList)

def Entry.script : Entry → Units × Value
  | .text name value => (unitsOf name,.string (unitsOf value))
  | .emptyFile name =>
    (unitsOf name,.blob (some (unitsOf [])) (unitsOf "application/octet-stream".toList) [])

def Entry.provider : Entry → List Char × EntryValue
  | .text name value => (name,.string value)
  | .emptyFile name => (name,.emptyFile)

def Entry.name : Entry → List Char
  | .text name _ => name
  | .emptyFile name => name

def Entry.value : Entry → List Char
  | .text _ value => value
  | .emptyFile _ => []

def onlyPairs : List Char → Bool
  | [] => true
  | [c] => c ≠ '\r' && c ≠ '\n'
  | c :: d :: rest =>
    if c = '\r' ∧ d = '\n' then onlyPairs rest else (c ≠ '\r' && c ≠ '\n') && onlyPairs (d :: rest)

def noLoneCr : List Char → Bool
  | [] => true
  | [c] => c ≠ '\r'
  | c :: d :: rest => if c = '\r' ∧ d = '\n' then noLoneCr rest else c ≠ '\r' && noLoneCr (d :: rest)

section

variable {rest : List Char}

theorem replaceCrlf_pair (rest : List Char) : replaceCrlf ('\r' :: '\n' :: rest) = '\n' :: replaceCrlf rest := rfl

theorem replaceCrlf_single {c : Char} (alone : c = '\r' → rest.head? ≠ some '\n') :
    replaceCrlf (c :: rest) = c :: replaceCrlf rest := by
  cases rest with
  | nil => rfl
  | cons d rest =>
    apply if_neg
    rintro ⟨cr,rfl⟩
    exact alone cr rfl

theorem onlyPairs_pair (rest : List Char) : onlyPairs ('\r' :: '\n' :: rest) = onlyPairs rest := rfl

theorem onlyPairs_cr (alone : rest.head? ≠ some '\n') : onlyPairs ('\r' :: rest) = false := by
  cases rest with
  | nil => rfl
  | cons d rest =>
    rw [onlyPairs,if_neg]
    · rfl
    · rintro ⟨-,rfl⟩
      exact alone rfl

theorem onlyPairs_lf (rest : List Char) : onlyPairs ('\n' :: rest) = false := by
  cases rest with
  | nil => rfl
  | cons d rest =>
    rw [onlyPairs,if_neg fun both => absurd both.1 (by decide)]
    rfl

theorem onlyPairs_other {c : Char} (cr : c ≠ '\r') (lf : c ≠ '\n') (rest : List Char) :
    onlyPairs (c :: rest) = onlyPairs rest := by
  cases rest with
  | nil => simp [onlyPairs,cr,lf]
  | cons d rest => simp [onlyPairs,cr,lf]

theorem noLoneCr_pair (rest : List Char) : noLoneCr ('\r' :: '\n' :: rest) = noLoneCr rest := rfl

theorem noLoneCr_cr (alone : rest.head? ≠ some '\n') : noLoneCr ('\r' :: rest) = false := by
  cases rest with
  | nil => rfl
  | cons d rest =>
    rw [noLoneCr,if_neg]
    · rfl
    · rintro ⟨-,rfl⟩
      exact alone rfl

theorem noLoneCr_other {c : Char} (cr : c ≠ '\r') (rest : List Char) :
    noLoneCr (c :: rest) = noLoneCr rest := by
  cases rest with
  | nil => exact decide_eq_true cr
  | cons d rest => rw [noLoneCr,if_neg fun both => cr both.1,decide_eq_true cr]; rfl

end

theorem replace_cons (c : Char) (by_ : List Char) (d : Char) (rest : List Char) :
    replace c by_ (d :: rest) = (if d = c then by_ else [d]) ++ replace c by_ rest := rfl

theorem replace_absent {c : Char} {s : List Char} (absent : c ∉ s) (by_ : List Char) : replace c by_ s = s := by
  have kept : (s.flatMap fun d => if d = c then by_ else [d]) = s.flatMap fun d => [d] := by
    apply List.flatMap_congr
    intro d mem
    apply if_neg
    rintro rfl
    exact absent mem
  exact kept.trans (List.flatMap_singleton' s)

theorem replaceCrlf_absent {s : List Char} (absent : '\r' ∉ s) : replaceCrlf s = s := by
  induction s with
  | nil => rfl
  | cons c s ih =>
    obtain ⟨other,later⟩ := not_or.mp (mt List.mem_cons.mpr absent)
    rw [replaceCrlf_single fun cr => absurd cr.symm other,ih later]

theorem crlf_eq_replace (s : List Char) :
    crlf s = replace '\n' ['\r','\n'] (replace '\r' ['\n'] (replaceCrlf s)) := by
  have normal : normalizeNewlines s = replace '\r' ['\n'] (replaceCrlf s) := by
    unfold normalizeNewlines
    split_ifs with some_
    · rfl
    · rw [replaceCrlf_absent some_,replace_absent some_]
  unfold crlf
  rw [normal]
  split_ifs with some_
  · rfl
  · exact (replace_absent some_ _).symm

theorem crlf_eq (s : List Char) : crlf s = Script.WebApi.crlf s := by
  rw [crlf_eq_replace]
  induction s using newline_induction with
  | nil => rfl
  | pair rest ih => exact congrArg ('\r' :: '\n' :: ·) ih
  | cr rest alone ih =>
    rw [replaceCrlf_single fun _ => alone,crlf_cr alone]
    exact congrArg ('\r' :: '\n' :: ·) ih
  | lf rest ih =>
    rw [replaceCrlf_single fun cr => absurd cr (by decide)]
    exact congrArg ('\r' :: '\n' :: ·) ih
  | other c rest cr lf ih =>
    rw [replaceCrlf_single fun same => absurd same cr,replace_cons,if_neg cr,List.singleton_append,
      replace_cons,if_neg lf,ih,crlf_other cr lf]
    rfl

theorem escapeMp_eq (s : List Char) : escapeMp s = escape s := by
  unfold escapeMp replace escape
  rw [List.flatMap_assoc,List.flatMap_assoc]
  apply List.flatMap_congr
  intro c _
  unfold escapeChar
  by_cases quote : c = '"'
  · rw [quote]
    rfl
  by_cases cr : c = '\r'
  · rw [cr]
    rfl
  · rw [if_neg quote,List.flatMap_singleton,if_neg cr,List.flatMap_singleton]

theorem escapeMultipartName_eq (s : List Char) : escapeMultipartName s = escape s := escapeMp_eq s

theorem bytesOf_singleton_append (c : Char) (s : List Char) : bytesOf (c :: s) = bytesOf [c] ++ bytesOf s :=
  bytesOf_append [c] s

theorem agree_name (s : List Char) :
    Agree (onlyPairs s = true) (bytesOf (escape s)) (bytesOf (escape (Script.WebApi.crlf s))) := by
  have step (c : Char) (rest : List Char) : bytesOf (escape (c :: rest)) =
      bytesOf (escapeChar c) ++ bytesOf (escape rest) := bytesOf_append _ _
  induction s using newline_induction with
  | nil => exact (Agree.refl []).congr (iff_of_true trivial rfl)
  | pair rest ih =>
    rw [onlyPairs_pair,crlf_pair,step,step,step,step]
    exact (ih.append_left _).append_left _
  | cr rest alone ih =>
    apply Agree.of_lt
    · rw [onlyPairs_cr alone]
      exact Bool.false_ne_true
    · have le := ih.length_le
      have some_ : 0 < (bytesOf (escapeChar '\n')).length := by decide
      rw [crlf_cr alone,step,step,step]
      simp only [List.length_append]
      omega
  | lf rest ih =>
    apply Agree.of_lt
    · rw [onlyPairs_lf]
      exact Bool.false_ne_true
    · have le := ih.length_le
      have some_ : 0 < (bytesOf (escapeChar '\r')).length := by decide
      rw [crlf_lf,step,step,step]
      simp only [List.length_append]
      omega
  | other c rest cr lf ih =>
    rw [onlyPairs_other cr lf,crlf_other cr lf,step,step]
    exact ih.append_left _

theorem agree_value (s : List Char) : Agree (noLoneCr s = true)
    (bytesOf (replace '\n' ['\r','\n'] (replaceCrlf s))) (bytesOf (Script.WebApi.crlf s)) := by
  induction s using newline_induction with
  | nil => exact (Agree.refl []).congr (iff_of_true trivial rfl)
  | pair rest ih =>
    rw [noLoneCr_pair,crlf_pair,replaceCrlf_pair,replace_cons,if_pos rfl]
    exact ih.append_left (bytesOf ['\r','\n'])
  | cr rest alone ih =>
    apply Agree.of_lt
    · rw [noLoneCr_cr alone]
      exact Bool.false_ne_true
    · have le := ih.length_le
      rw [crlf_cr alone,replaceCrlf_single fun _ => alone,replace_cons,if_neg (by decide),List.singleton_append,
        bytesOf_singleton_append,bytesOf_singleton_append '\r' ('\n' :: _),bytesOf_singleton_append '\n']
      have some_ : 0 < (bytesOf ['\n']).length := by decide
      simp only [List.length_append]
      omega
  | lf rest ih =>
    rw [noLoneCr_other (by decide),crlf_lf,replaceCrlf_single fun same => absurd same (by decide),replace_cons,
      if_pos rfl]
    exact ih.append_left (bytesOf ['\r','\n'])
  | other c rest cr lf ih =>
    rw [noLoneCr_other cr,crlf_other cr lf,replaceCrlf_single fun same => absurd same cr,replace_cons,if_neg lf,
      bytesOf_append,bytesOf_singleton_append c (Script.WebApi.crlf rest)]
    exact ih.append_left (bytesOf [c])

def opening (boundary : List Char) : Bytes :=
  bytesOf ("--".toList ++ boundary ++ "\r\n".toList) ++ bytesOf "Content-Disposition: form-data; name=\"".toList

theorem headOf_bytes (boundary name : List Char) :
    bytesOf (headOf boundary name) = opening boundary ++ bytesOf (escape name) ++ bytesOf "\"".toList := by
  have line : "\r\nContent-Disposition: form-data; name=\"".toList =
      "\r\n".toList ++ "Content-Disposition: form-data; name=\"".toList := rfl
  rw [headOf,opening,line]
  simp only [bytesOf_append,List.append_assoc]

def emptyFileHead : Bytes :=
  bytesOf "\"; filename=\"\"\r\nContent-Type: application/octet-stream\r\n\r\n".toList ++ bytesOf "\r\n".toList

theorem script_part (boundary : List Char) (e : Entry) : part (unitsOf boundary) e.script =
    opening boundary ++ bytesOf (escape e.name) ++ match e with
      | .text _ value => bytesOf "\"\r\n\r\n".toList ++ bytesOf (Script.WebApi.crlf value) ++ bytesOf "\r\n".toList
      | .emptyFile _ => emptyFileHead := by
  cases e with
  | text name value =>
    have line : "\"\r\n\r\n".toList = "\"".toList ++ "\r\n\r\n".toList := rfl
    rw [Entry.script,part_string,bytesOf_append,bytesOf_append,bytesOf_append,headOf_bytes,line,bytesOf_append]
    simp only [List.append_assoc]
    rfl
  | emptyFile name =>
    have typed : typeOf "application/octet-stream".toList = "application/octet-stream".toList := rfl
    have line : "\"; filename=\"\"\r\nContent-Type: application/octet-stream\r\n\r\n".toList =
        "\"".toList ++ ("; filename=\"".toList ++ (escape [] ++ ("\"\r\nContent-Type: ".toList ++
          ("application/octet-stream".toList ++ "\r\n\r\n".toList)))) := rfl
    rw [Entry.script,part_blob,typed,emptyFileHead,line]
    simp only [bytesOf_append,headOf_bytes,List.append_assoc,List.nil_append]
    rfl

theorem plan_part (boundary : List Char) (e : Entry) : planPart boundary e =
    opening boundary ++ bytesOf (escape (Script.WebApi.crlf e.name)) ++ match e with
      | .text _ value => bytesOf "\"\r\n\r\n".toList ++ bytesOf (Script.WebApi.crlf value) ++ bytesOf "\r\n".toList
      | .emptyFile _ => emptyFileHead := by
  cases e <;> simp only [planPart,opening,emptyFileHead,bytesOf_append,crlf_eq,escapeMp_eq,List.append_assoc,Entry.name]

theorem provider_part (boundary : List Char) (e : Entry) : encodePart boundary e.provider =
    opening boundary ++ bytesOf (escape e.name) ++ match e with
      | .text _ value => bytesOf "\"\r\n\r\n".toList ++
          bytesOf (replace '\n' ['\r','\n'] (replaceCrlf value)) ++ bytesOf "\r\n".toList
      | .emptyFile _ => emptyFileHead := by
  cases e <;> simp only [encodePart,Entry.provider,opening,emptyFileHead,bytesOf_append,escapeMultipartName_eq,
    List.append_assoc,Entry.name]

theorem agree_plan (boundary : List Char) (e : Entry) : Agree (onlyPairs e.name = true)
    (part (unitsOf boundary) e.script) (planPart boundary e) := by
  rw [script_part,plan_part]
  exact ((agree_name e.name).append_left _).append_right _

theorem agree_provider (boundary : List Char) (e : Entry) : Agree (noLoneCr e.value = true)
    (encodePart boundary e.provider) (part (unitsOf boundary) e.script) := by
  rw [script_part,provider_part]
  cases e with
  | text name value =>
    exact (((agree_value value).append_left _).append_right _).append_left _
  | emptyFile name => exact (Agree.refl _).congr (iff_of_true trivial rfl)

/-- The encoders agree exactly on the entries whose names have no newline but CR LF and whose
values have no lone CR. -/
theorem encoders_agree_iff (boundary : List Char) (entries : List Entry) :
    (multipartEncode (unitsOf boundary) (entries.map Entry.script) = planBody boundary entries ∧
      encodeFormBody boundary (entries.map Entry.provider) =
        multipartEncode (unitsOf boundary) (entries.map Entry.script)) ↔
      ∀ e ∈ entries,onlyPairs e.name = true ∧ noLoneCr e.value = true := by
  have plan : Agree (∀ e ∈ entries,onlyPairs e.name = true)
      (multipartEncode (unitsOf boundary) (entries.map Entry.script)) (planBody boundary entries) := by
    rw [multipartEncode_eq,planBody,List.flatMap_map]
    exact (Agree.flatMap fun e _ => agree_plan boundary e).append_right _
  have provider : Agree (∀ e ∈ entries,noLoneCr e.value = true)
      (encodeFormBody boundary (entries.map Entry.provider))
      (multipartEncode (unitsOf boundary) (entries.map Entry.script)) := by
    rw [multipartEncode_eq,encodeFormBody,List.flatMap_map,List.flatMap_map]
    exact (Agree.flatMap fun e _ => agree_provider boundary e).append_right _
  rw [plan.iff,provider.iff,← forall₂_and]

/-- A line feed in a name is one escape here and two there. -/
theorem line_feed_in_name : ¬ ∀ (boundary : List Char) (entries : List Entry),
    multipartEncode (unitsOf boundary) (entries.map Entry.script) = planBody boundary entries ∧
      encodeFormBody boundary (entries.map Entry.provider) =
        multipartEncode (unitsOf boundary) (entries.map Entry.script) := by
  intro all
  have same := (all [] [.text ['\n'] []]).1
  rw [multipartEncode_eq] at same
  have parts : part (unitsOf []) (Entry.text ['\n'] []).script = planPart [] (.text ['\n'] []) := by
    simpa only [List.map_singleton,List.flatMap_singleton,planBody,List.append_left_inj] using same
  exact absurd ((agree_plan [] (.text ['\n'] [])).iff.mp parts) (by decide)

end Sharko.Forms.Encoders
