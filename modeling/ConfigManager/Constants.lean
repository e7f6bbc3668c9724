import ConfigManager.Py.Regex

/-! # The link patterns

The nine alternatives of `CONFIG_PATTERN`, and `CONFIG_REGEX`, the same nine
ignoring case, which the channel scraper searches with.
-/
namespace ConfigManager

open Py Regex

/-- `SCRAPER_PUBLISH_LIMIT`. -/
def scraperPublishLimit : Nat := 20

/-- `[A-Za-z0-9+/=_-]`. -/
def isPayload (c : Char) : Bool :=
  let n := c.toNat
  (65 ≤ n && n ≤ 90) || (97 ≤ n && n ≤ 122) || (48 ≤ n && n ≤ 57) ||
    n == 43 || n == 47 || n == 61 || n == 95 || n == 45

/-- `[^\s]`. -/
def isVisible (c : Char) : Bool := !isSpace c

/-- `[A-Za-z0-9+/=_-]+`. -/
def payload : Regex := rep true 1 isPayload

/-- `[^\s]+?`. -/
def shortest : Regex := rep false 1 isVisible

/-- `#[^\s]*`. -/
def remark : Regex := seq (lit "#".toList) (rep true 0 isVisible)

/-- `(?=\s|$)`. -/
def lineEnd : Regex := ahead (alt (cls isSpace) eos)

/-- The alternatives of `CONFIG_PATTERN`, in its order. -/
def configAlternatives : List Regex :=
  [seq (lit "vmess://".toList) (seq payload (opt remark)),
    seq (lit "vless://".toList) (seq shortest remark),
    seq (lit "vless://".toList) (seq shortest lineEnd),
    seq (lit "trojan://".toList) (seq shortest remark),
    seq (lit "trojan://".toList) (seq shortest lineEnd),
    seq (lit "ss://".toList) (seq payload (seq (lit "@".toList) (seq shortest remark))),
    seq (lit "ss://".toList) (seq payload (seq (lit "@".toList) (seq shortest lineEnd))),
    seq (lit "ss://".toList) (seq payload remark),
    seq (lit "ss://".toList) (seq payload lineEnd)]

/-- `r|t|…`. -/
def anyOf : List Regex → Regex
  | [] => cls fun _ => false
  | [r] => r
  | r :: rs => alt r (anyOf rs)

/-- `CONFIG_PATTERN`. -/
def configPattern : Regex := group (anyOf configAlternatives)

/-- `CONFIG_REGEX`: the pattern compiled with `re.IGNORECASE`. -/
def configRegex : Regex := configPattern.ignoreCase

end ConfigManager
