import ConfigManager.CleanIp
import ConfigManager.Conversations
import ConfigManager.Py.Tokens

/-! # Imports of clean IPs (`core.ip_manager`, `app.handlers.admin`)

Four functions read a list of IPs.  The two parsers of `core.ip_manager` split it at
whitespace and commas, and read its valid tokens; the branch for a list in a message splits
it at whitespace only, and the loop over an uploaded file takes a line for one IP.  So the
four read the same list exactly if a line with a valid IP has nothing else on it
(`sameList_iff`).
-/
namespace ConfigManager

open Py Regex

/-! ## The importers -/

/-- `[\s,]`. -/
def isSeparator (c : Char) : Bool := isSpace c || c == ','

/-- `[\n\r,\s]`. -/
def isTextSeparator (c : Char) : Bool := c == '\n' || c == '\r' || c == ',' || isSpace c

/-- What the parsers keep of their candidates. -/
def keptIps (candidates : List Str) : List Str :=
  (candidates.map strip).filter fun candidate => candidate ≠ [] && isValidIp candidate

/-- `parse_ips_from_text`. -/
def parseIpsFromText (text : Str) : List Str :=
  keptIps (split (rep true 1 isTextSeparator) (strip text))

/-- `line.startswith("#")`. -/
def isComment (line : Str) : Bool := "#".toList.isPrefixOf line

/-- `parse_ips_from_file`, of what the file holds. -/
def parseIpsFromFile (content : Str) : List Str :=
  (fileLines content).flatMap fun line =>
    let line := strip line
    if line = [] ∨ isComment line = true then []
    else keptIps (split (rep true 1 isSeparator) line)

/-- The IPs that `handle_admin_text` saves of a message, in its branch for `ip_bulk`. -/
def bulkIps (message : Str) : List Str :=
  let text := strip message
  ((words (strip text)).map strip).filter isValidIp

/-- The IPs that the loop of `handle_document` saves of a file. -/
def uploadedIps (content : Str) : List Str :=
  ((fileLines content).map strip).filter fun ip => ip ≠ [] && !(isComment ip) && isValidIp ip

/-! ## The list they are to read -/

/-- The valid IPs among the tokens of a text. -/
def validTokens (text : Str) : List Str := (tokens isSeparator text).filter isValidIp

/-- No line is a comment. -/
def NoComments (text : Str) : Prop := ∀ line ∈ fileLines text, isComment (strip line) = false

instance (text : Str) : Decidable (NoComments text) :=
  inferInstanceAs (Decidable (∀ line ∈ fileLines text, isComment (strip line) = false))

/-- All importers read the valid tokens of a text. -/
structure SameList (text : Str) : Prop where
  parsedText : parseIpsFromText text = validTokens text
  parsedFile : parseIpsFromFile text = validTokens text
  bulk : bulkIps text = validTokens text
  uploaded : uploadedIps text = validTokens text

/-- A line with a valid IP has nothing else on it. -/
def OnePerLine (text : Str) : Prop :=
  ∀ line ∈ fileLines text, ∀ ip ∈ tokens isSeparator line, isValidIp ip = true → strip line = ip

/-! ## Tokens and separators -/

theorem isSeparator_of_isSpace {c : Char} (h : isSpace c = true) : isSeparator c = true := by
  rw [isSeparator, h, Bool.true_or]

theorem noSpace_of_free {w : Str} (h : ∀ c ∈ w, isSeparator c = false) : NoSpace w :=
  fun c hc => Bool.eq_false_iff.mpr fun hs => by
    have hsep := isSeparator_of_isSpace hs
    rw [h c hc] at hsep
    cases hsep

theorem isSpace_of_isLineEnd {c : Char} (h : isLineEnd c = true) : isSpace c = true := by
  obtain rfl | rfl : c = '\n' ∨ c = '\r' := by simpa [isLineEnd] using h
  · decide
  · decide

theorem isTextSeparator_eq : isTextSeparator = isSeparator := by
  funext c
  by_cases hc : isSpace c = true
  · simp [isTextSeparator, isSeparator, hc]
  · have hend : isLineEnd c = false := by
      simpa using fun h => hc (isSpace_of_isLineEnd h)
    rw [isLineEnd] at hend
    simp [isTextSeparator, isSeparator, hc, hend]

theorem isSeparator_of_isDigit {c : Char} (h : Json.isDigit c = true) :
    isSeparator c = false := by
  have hcomma : c ≠ ',' := by
    rintro rfl
    exact absurd h (by decide)
  have hspace : isSpace c = false := by
    simp only [Json.isDigit, Bool.and_eq_true, decide_eq_true_eq] at h
    simp [isSpace]
    omega
  simp [isSeparator, hspace, hcomma]

theorem isSeparator_of_isValidIp {ip : Str} (h : isValidIp (strip ip) = true) :
    ∀ c ∈ strip ip, isSeparator c = false := by
  intro c hc
  rw [← strip_strip] at hc
  rcases char_of_mem_strip h hc with rfl | hdigit
  · decide
  · exact isSeparator_of_isDigit hdigit

/-- **A valid IP is one token**, of the two parsers and of `split()`. -/
theorem tokens_of_isValidIp {ip : Str} (h : isValidIp (strip ip) = true) :
    tokens isSeparator ip = [strip ip] ∧ words ip = [strip ip] := by
  have hfree := isSeparator_of_isValidIp h
  have hne := ne_nil_of_isValidIp h
  rw [words_eq_tokens, ← tokens_strip fun _ => isSeparator_of_isSpace,
    ← tokens_strip fun _ h => h]
  exact ⟨tokens_of_token hne hfree, tokens_of_token hne (noSpace_of_free hfree)⟩

/-! ## The parsers -/

/-- Empty candidates are not kept, and a candidate without whitespace is kept as it is. -/
theorem keptIps_filter {candidates : List Str}
    (h : ∀ w ∈ candidates.filter (· ≠ []), NoSpace w) :
    keptIps candidates = (candidates.filter (· ≠ [])).filter isValidIp := by
  unfold keptIps
  induction candidates with
  | nil => rfl
  | cons w candidates ih =>
    by_cases hne : w = []
    · subst hne
      exact ih h
    · rw [List.filter_cons_of_pos (by simpa using hne)] at h ⊢
      have hw : strip w = w := strip_of_noSpace (h w (List.mem_cons_self ..))
      have hrest := ih fun v hv => h v (List.mem_cons_of_mem _ hv)
      rw [List.map_cons, hw, List.filter_cons, List.filter_cons, hrest]
      simp [hne]

/-- **The parsers keep the valid tokens.** -/
theorem keptIps_split (s : Str) :
    keptIps (split (rep true 1 isSeparator) s) = validTokens s := by
  have htokens := filter_split isSeparator s
  rw [keptIps_filter, htokens, validTokens]
  intro w hw
  rw [htokens] at hw
  exact noSpace_of_free (of_mem_tokens hw).2

/-- What is stripped of a text has no token. -/
theorem validTokens_strip (s : Str) : validTokens (strip s) = validTokens s := by
  rw [validTokens, tokens_strip fun _ => isSeparator_of_isSpace, validTokens]

theorem parseIpsFromText_eq (text : Str) : parseIpsFromText text = validTokens text := by
  rw [parseIpsFromText, isTextSeparator_eq, keptIps_split, validTokens_strip]

/-- The valid tokens of a text are those of its lines. -/
theorem validTokens_eq (text : Str) :
    validTokens text = (fileLines text).flatMap validTokens := by
  rw [validTokens, tokens_eq_lines fun _ h => isSeparator_of_isSpace (isSpace_of_isLineEnd h),
    List.filter_flatMap]
  rfl

theorem parseIpsFromFile_eq {content : Str} (h : NoComments content) :
    parseIpsFromFile content = validTokens content := by
  rw [parseIpsFromFile, validTokens_eq]
  refine List.flatMap_congr fun line hline => ?_
  rw [← validTokens_strip line]
  by_cases hempty : strip line = []
  · rw [if_pos (.inl hempty), hempty]
    rfl
  · rw [if_neg (by simp [hempty, h line hline]), keptIps_split]

/-! ## The handlers -/

theorem bulkIps_eq (message : Str) : bulkIps message = (words message).filter isValidIp := by
  have hwords : words (strip (strip message)) = words message := by
    rw [strip_strip, words_eq_tokens, tokens_strip fun _ h => h, words_eq_tokens]
  have hstrip : (words message).map strip = words message := by
    conv_rhs => rw [← List.map_id (words message)]
    exact List.map_congr_left fun w hw => strip_of_noSpace (of_mem_tokens hw).2
  rw [bulkIps, hwords, hstrip]

/-- The branch for a list saves them. -/
theorem textActions_bulk (b : Bot) (userId : Int) (message : Str) (around : Surroundings) :
    textActions b userId (strip message) around .awaitingIpBulk =
      (bulkIps message).map .addCleanIp := by
  have hwords : words (strip message) = words message := tokens_strip (fun _ h => h) message
  rw [textActions, hwords, bulkIps_eq]

/-- The loop over an upload saves them. -/
theorem documentActions_uploaded {b : Bot} {d : UserData} {userId : Int} {doc : Document}
    (h : TakesDocument b d userId doc) {content : Str} (hlines : doc.lines = fileLines content) :
    documentActions b d userId doc =
      .deleteOldCleanIps doc.old :: (uploadedIps content).map .addCleanIp := by
  rw [documentActions, if_pos h, hlines]
  rfl

/-! ## Line by line -/

/-- Lists that are joined of parts, each of them the other's part or empty. -/
theorem flatMap_eq_iff {α β : Type} {f g : α → List β} {l : List α}
    (h : ∀ a ∈ l, f a = g a ∨ f a = []) :
    l.flatMap f = l.flatMap g ↔ ∀ a ∈ l, f a = g a := by
  refine ⟨fun heq => ?_, List.flatMap_congr⟩
  induction l with
  | nil => exact fun a ha => absurd ha List.not_mem_nil
  | cons a l ih =>
    have hl : ∀ b ∈ l, f b = g b ∨ f b = [] := fun b hb => h b (List.mem_cons_of_mem _ hb)
    have hle : (l.flatMap f).length ≤ (l.flatMap g).length := by
      rw [List.length_flatMap, List.length_flatMap]
      refine List.sum_le_sum fun b hb => ?_
      rcases hl b hb with hb | hb <;> simp [hb]
    have ha : f a = g a := by
      rcases h a (List.mem_cons_self ..) with ha | ha
      · exact ha
      · have hlen := congrArg List.length heq
        simp only [List.flatMap_cons, ha, List.nil_append, List.length_append] at hlen
        rw [ha, List.eq_nil_of_length_eq_zero (l := g a) (by omega)]
    rw [List.flatMap_cons, List.flatMap_cons, ha] at heq
    exact List.forall_mem_cons.mpr ⟨ha, ih hl (List.append_cancel_left heq)⟩

theorem uploadedIps_eq {content : Str} (h : NoComments content) :
    uploadedIps content =
      (fileLines content).flatMap fun line => [strip line].filter isValidIp := by
  have hvalid : uploadedIps content = ((fileLines content).map strip).filter isValidIp := by
    refine List.filter_congr fun ip hip => ?_
    obtain ⟨line, hline, rfl⟩ := List.mem_map.mp hip
    rw [h line hline]
    by_cases hip : isValidIp (strip line) = true
    · simp [hip, ne_nil_of_isValidIp hip]
    · simp [hip]
  rw [hvalid, ← List.flatMap_singleton' ((fileLines content).map strip), List.filter_flatMap,
    List.flatMap_map]

/-- **What a line has for the upload**: its valid tokens, or nothing. -/
theorem uploadedLine_iff (line : Str) :
    [strip line].filter isValidIp = validTokens line ↔
      ∀ ip ∈ tokens isSeparator line, isValidIp ip = true → strip line = ip := by
  by_cases h : isValidIp (strip line) = true
  · rw [validTokens, (tokens_of_isValidIp h).1]
    exact iff_of_true rfl fun ip hip _ => (List.mem_singleton.mp hip).symm
  · rw [List.filter_cons_of_neg h, List.filter_nil, eq_comm, validTokens, List.filter_eq_nil_iff]
    exact forall₂_congr fun ip _ => ⟨fun hip hvalid => absurd hvalid hip,
      fun hip hvalid => h (by rw [hip hvalid]; exact hvalid)⟩

theorem uploadedLine (line : Str) :
    [strip line].filter isValidIp = validTokens line ∨ [strip line].filter isValidIp = [] := by
  by_cases h : isValidIp (strip line) = true
  · rw [validTokens, (tokens_of_isValidIp h).1]
    exact .inl rfl
  · rw [List.filter_cons_of_neg h, List.filter_nil]
    exact .inr rfl

/-- A line that the upload reads is read by `split()`. -/
theorem bulkLine {line : Str}
    (h : ∀ ip ∈ tokens isSeparator line, isValidIp ip = true → strip line = ip) :
    (words line).filter isValidIp = validTokens line := by
  by_cases hline : isValidIp (strip line) = true
  · rw [validTokens, (tokens_of_isValidIp hline).1, (tokens_of_isValidIp hline).2]
  · have hnone : ∀ ip ∈ tokens isSeparator line, ¬isValidIp ip = true := fun ip hip hvalid =>
      hline (by rw [h ip hip hvalid]; exact hvalid)
    -- A valid IP between whitespace has no comma in it.
    have hwords : ∀ ip ∈ words line, ¬isValidIp ip = true := by
      intro ip hip hvalid
      have hfree : ∀ c ∈ ip, isSeparator c = false := by
        rw [← strip_of_noSpace (of_mem_tokens hip).2] at hvalid ⊢
        exact isSeparator_of_isValidIp hvalid
      exact hnone ip (mem_tokens_of_coarser (fun _ => isSeparator_of_isSpace) hip hfree) hvalid
    rw [validTokens, List.filter_eq_nil_iff.mpr hnone, List.filter_eq_nil_iff.mpr hwords]

/-! ## All importers -/

/-- **When the importers read the same list.** -/
theorem sameList_iff {text : Str} (h : NoComments text) : SameList text ↔ OnePerLine text := by
  have huploaded : uploadedIps text = validTokens text ↔ OnePerLine text := by
    rw [uploadedIps_eq h, validTokens_eq, flatMap_eq_iff fun line _ => uploadedLine line]
    exact forall₂_congr fun line _ => uploadedLine_iff line
  refine ⟨fun hsame => huploaded.mp hsame.uploaded, fun hone => ?_⟩
  exact {
    parsedText := parseIpsFromText_eq text
    parsedFile := parseIpsFromFile_eq h
    bulk := by
      rw [bulkIps_eq, words_eq_tokens,
        tokens_eq_lines fun _ h => isSpace_of_isLineEnd h, List.filter_flatMap, validTokens_eq]
      exact List.flatMap_congr fun line hline => bulkLine (hone line hline)
    uploaded := huploaded.mpr hone }

theorem sameList_iff_sample :
    SameList "1.1.1.1\r\n2.2.2.2\n".toList ↔ OnePerLine "1.1.1.1\r\n2.2.2.2\n".toList :=
  sameList_iff (by decide)

/-- Three IPs on a line. -/
def threeIps : Str := "1.1.1.1 2.2.2.2,3.3.3.3".toList

/-- A list in a message loses two of them, and an upload all three. -/
theorem not_sameList_three :
    NoComments threeIps ∧
      validTokens threeIps = ["1.1.1.1".toList, "2.2.2.2".toList, "3.3.3.3".toList] ∧
      parseIpsFromText threeIps = validTokens threeIps ∧
      parseIpsFromFile threeIps = validTokens threeIps ∧
      bulkIps threeIps = ["1.1.1.1".toList] ∧ uploadedIps threeIps = [] ∧ ¬SameList threeIps := by
  have hvalid :
      validTokens threeIps = ["1.1.1.1".toList, "2.2.2.2".toList, "3.3.3.3".toList] := by
    decide +kernel
  have huploaded : uploadedIps threeIps = [] := by decide +kernel
  refine ⟨by decide, hvalid, by decide +kernel, by decide +kernel, by decide +kernel, huploaded,
    fun h => ?_⟩
  have heq := h.uploaded
  rw [huploaded, hvalid] at heq
  cases heq

end ConfigManager
