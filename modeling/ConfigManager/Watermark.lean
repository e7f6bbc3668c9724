import ConfigManager.LinkUtils

/-! # The watermark (`processor.parser`)

`inject_watermark` puts the flag of a country and the channel into a link's
remark.  A vmess link keeps its remark in the `ps` member of its payload, which
is decoded, changed and encoded again; where that fails, and for every other
link, the remark is the fragment.
-/
namespace ConfigManager

open Py

variable (env : Env)

/-- `f"{flag} t.me/{channel}"`, `none` where `get_flag` raises. -/
def watermark (countryCode : Str) : Option Str :=
  (getFlag env.unicode countryCode).map fun flag =>
    flag ++ " t.me/".toList ++ env.channelUsername.dropWhile (· == '@')

/-- `f"{base}#{encoded_watermark}"`. -/
def withFragment (config mark : Str) : Str := normalized config ++ '#' :: Percent.quote mark

/-- `data["ps"] = watermark`. -/
def setRemark (mark : Str) : Json → Option Json := dataSet "ps".toList (Json.text mark)

/-- The body of `_watermark_vmess`, `none` where it raises. -/
def rewriteVmess (config mark : Str) : Option Str :=
  (vmessData env.floats Utf8.decode config).bind fun data =>
    (setRemark mark data).bind vmessLink

/-- `_watermark_vmess`. -/
def watermarkVmess (config mark : Str) : Str :=
  (rewriteVmess env config mark).getD (withFragment config mark)

/-- `inject_watermark`, `none` where it raises. -/
def injectWatermark (config countryCode : Str) : Option Str :=
  (watermark env countryCode).map fun mark =>
    if isVmess config then watermarkVmess env config mark else withFragment config mark

variable {env} {config countryCode mark : Str}

/-- Every country has a watermark. -/
theorem exists_watermark (hU : env.unicode.LettersLow) (countryCode : Str) :
    ∃ mark, watermark env countryCode = some mark := by
  obtain ⟨flag, hflag⟩ := Option.isSome_iff_exists.mp (getFlag_isSome hU countryCode)
  exact ⟨_, by rw [watermark, hflag, Option.map_some]⟩

end ConfigManager
