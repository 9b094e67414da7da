import Marginalia.Text.Bytes

/-
  This file defines the languages to give glosses in, and how a
  name or a code is turned into the code of one of them.

  Key definitions include:
    * `Language`, `Language.table`
    * `Language.lookup?`
    * `Language.findCode?`
    * `Language.resolve`
-/

namespace Marginalia

/- A language: the name it is shown by, and its code. -/
structure Language where
  name : Bytes
  code : Bytes
deriving DecidableEq, Repr

namespace Language

/- A row of the table. -/
def row (name code : String) : Language :=
  ⟨utf8 name, utf8 code⟩

/- All languages. -/
def table : List Language :=
  [ row "Afrikaans" "af",
    row "Albanian" "sq",
    row "Amharic" "am",
    row "Arabic" "ar",
    row "Armenian" "hy",
    row "Azerbaijani" "az",
    row "Basque" "eu",
    row "Belarusian" "be",
    row "Bengali" "bn",
    row "Bosnian" "bs",
    row "Bulgarian" "bg",
    row "Catalan" "ca",
    row "Cebuano" "ceb",
    row "Chichewa" "ny",
    row "Chinese Simplified" "zh-CN",
    row "Chinese Traditional" "zh-TW",
    row "Corsican" "co",
    row "Croatian" "hr",
    row "Czech" "cs",
    row "Danish" "da",
    row "Dutch" "nl",
    row "English" "en",
    row "Esperanto" "eo",
    row "Estonian" "et",
    row "Filipino" "tl",
    row "Finnish" "fi",
    row "French" "fr",
    row "Frisian" "fy",
    row "Galician" "gl",
    row "Georgian" "ka",
    row "German" "de",
    row "Greek" "el",
    row "Gujarati" "gu",
    row "Haitian Creole" "ht",
    row "Hausa" "ha",
    row "Hawaiian" "haw",
    row "Hebrew" "iw",
    row "Hindi" "hi",
    row "Hmong" "hmn",
    row "Hungarian" "hu",
    row "Icelandic" "is",
    row "Igbo" "ig",
    row "Indonesian" "id",
    row "Irish" "ga",
    row "Italian" "it",
    row "Japanese" "ja",
    row "Javanese" "jw",
    row "Kannada" "kn",
    row "Kazakh" "kk",
    row "Khmer" "km",
    row "Korean" "ko",
    row "Kurdish (Kurmanji)" "ku",
    row "Kyrgyz" "ky",
    row "Lao" "lo",
    row "Latin" "la",
    row "Latvian" "lv",
    row "Lithuanian" "lt",
    row "Luxembourgish" "lb",
    row "Macedonian" "mk",
    row "Malagasy" "mg",
    row "Malay" "ms",
    row "Malayalam" "ml",
    row "Maltese" "mt",
    row "Maori" "mi",
    row "Marathi" "mr",
    row "Mongolian" "mn",
    row "Myanmar (Burmese)" "my",
    row "Nepali" "ne",
    row "Norwegian" "no",
    row "Pashto" "ps",
    row "Persian" "fa",
    row "Polish" "pl",
    row "Portuguese" "pt",
    row "Punjabi" "pa",
    row "Romanian" "ro",
    row "Russian" "ru",
    row "Samoan" "sm",
    row "Scots Gaelic" "gd",
    row "Serbian" "sr",
    row "Sesotho" "st",
    row "Shona" "sn",
    row "Sindhi" "sd",
    row "Sinhala" "si",
    row "Slovak" "sk",
    row "Slovenian" "sl",
    row "Somali" "so",
    row "Spanish" "es",
    row "Sundanese" "su",
    row "Swahili" "sw",
    row "Swedish" "sv",
    row "Tajik" "tg",
    row "Tamil" "ta",
    row "Telugu" "te",
    row "Thai" "th",
    row "Turkish" "tr",
    row "Ukrainian" "uk",
    row "Urdu" "ur",
    row "Uzbek" "uz",
    row "Vietnamese" "vi",
    row "Welsh" "cy",
    row "Xhosa" "xh",
    row "Yiddish" "yi",
    row "Yoruba" "yo",
    row "Zulu" "zu" ]

/- The first language with this name or code, in any case. -/
def lookup? (key : Bytes) : Option Language :=
  table.find? (fun language =>
    language.name.lower == key.lower || language.code.lower == key.lower)

/- The text with dashes for underscores. -/
def dashed (s : Bytes) : Bytes :=
  s.map (fun b => if b = Ascii.underscore then Ascii.minus else b)

/-
  The code of a language from its name or its code.  A code with
  a region that is not in the table counts without its region.
-/
def findCode? (text : Bytes) : Option Bytes :=
  if text.isEmpty then none
  else
    let key := dashed text
    match lookup? key with
    | some language => some language.code
    | none =>
        let front := key.takeWhile (· != Ascii.minus)
        if front.isEmpty || front.length == key.length then none
        else (lookup? front).map Language.code

/- The code of the language unless told otherwise. -/
def defaultCode : Bytes :=
  utf8 "en"

/- The code of a language, or a default if there is none. -/
def resolve (text fallback : Bytes) : Bytes :=
  (findCode? text).getD fallback

end Language

end Marginalia
