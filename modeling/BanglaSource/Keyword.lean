-- SUMMARY: The table of localized keywords and its lookup, which does not depend on how a spelling is encoded.
import BanglaSource.Script.Canonical
import BanglaSource.Keyword.Category

/-!
# Keywords

A keyword is a localized spelling, the text of the target language that stands
for it, and a category. Several spellings may have one target. Spellings are
compared in canonical form, and if two rows agree the first one counts.
-/
namespace BanglaSource

/-- A row of the keyword table. -/
structure Keyword where
  spelling : Text
  target : Text
  category : Category
deriving DecidableEq, Repr

namespace Keyword

/-- The rows of one category. -/
def rows (c : Category) (pairs : List (String × String)) : List Keyword :=
  pairs.map fun (spelling, target) => ⟨spelling.toList, target.toList, c⟩

/-- The rows of the table. -/
def table : List Keyword :=
  rows .declaration
    [ ("সংখ্যা", "let"), ("শব্দ", "let"), ("বাক্য", "let"), ("চলক", "let"),
      ("পরিবর্তনশীল", "var"), ("ধ্রুবক", "const"), ("ব্যাক্তি", "const") ] ++
  rows .function
    [ ("অনুষ্ঠান", "function"), ("ফাংশন", "function"), ("প্রেরণ", "return"),
      ("ফেরত", "return"), ("ফিরিয\u09bcে_দাও", "return") ] ++
  rows .conditional
    [ ("যদি", "if"), ("নাহলে", "else"), ("অন্যথায\u09bc", "else"), ("নাহলে_যদি", "else if") ] ++
  rows .loop
    [ ("যখন", "while"), ("জন্য", "for"), ("প্রতিটি", "for"), ("করো", "do"),
      ("থামাও", "break"), ("চালিয\u09bcে_যাও", "continue"), ("পুনরাবৃত্তি", "for") ] ++
  rows .objectModel
    [ ("নতুন", "new"), ("শ্রেণী", "class"), ("ক্লাস", "class"), ("গঠন", "constructor"),
      ("নির্মাতা", "constructor"), ("বিস্তৃত", "extends"), ("সম্প্রসারিত", "extends"),
      ("স্ট্যাটিক", "static"), ("স্থির", "static"), ("এটি", "this"), ("এই", "this"),
      ("সুপার", "super"), ("অতিক্লাস", "super") ] ++
  rows .console
    [ ("লিখো", "console.log"), ("ছাপাও", "console.log"), ("প্রিন্ট", "console.log"),
      ("দেখাও", "console.log"), ("সমস্যা_লিখো", "console.log"),
      ("ত্রুটি_লিখো", "console.error"), ("লিখো_সতর্কতা", "console.warn"),
      ("লিখো_সাবধান", "console.warn"), ("লিখো_তথ্য", "console.info"),
      ("পরিষ্কার_করো", "console.clear") ] ++
  rows .literal
    [ ("সত্য", "true"), ("মিথ্যা", "false"), ("শূন্য", "null"), ("শুন্য", "null"),
      ("অনির্ধারিত", "undefined"), ("অসংজ্ঞায\u09bcিত", "undefined") ] ++
  rows .exception
    [ ("চেষ্টা", "try"), ("চেষ্টা_করো", "try"), ("ধরো", "catch"), ("ধরা", "catch"),
      ("অবশেষে", "finally"), ("শেষে", "finally"), ("ফেলা", "throw"), ("নিক্ষেপ", "throw"),
      ("ছুড\u09bcে_দাও", "throw") ] ++
  rows .async
    [ ("অপেক্ষা", "await"), ("অপেক্ষা_করো", "await"), ("অ্যাসিঙ্ক", "async"),
      ("অসমকালীন", "async"), ("প্রতিজ্ঞা", "Promise") ] ++
  rows .switch
    [ ("সুইচ", "switch"), ("পরিবর্তন", "switch"), ("কেস", "case"), ("ক্ষেত্র", "case"),
      ("ডিফল্ট", "default"), ("সাধারণ", "default") ] ++
  rows .modules
    [ ("আমদানি", "import"), ("আনো", "import"), ("রপ্তানি", "export"), ("রফতানি", "export"),
      ("পাঠাও", "export"), ("থেকে", "from"), ("হিসেবে", "as"), ("হিসাবে", "as"),
      ("যেমন", "as") ] ++
  rows .membership
    [ ("ইন", "in"), ("ভিতরে", "in"), ("মধ্যে", "in"), ("অফ", "of"), ("মধ্য", "of"),
      ("এর", "of") ] ++
  rows .operator
    [ ("টাইপ", "typeof"), ("ধরন", "typeof"), ("কিসের", "typeof"),
      ("ইনস্ট্যান্স", "instanceof"), ("উদাহরণ", "instanceof"), ("ভ্যাড", "void"),
      ("শূন্যতা", "void"), ("মুছো", "delete") ] ++
  rows .debugging
    [ ("ডিবাগ", "debugger"), ("থামো", "debugger") ] ++
  rows .dialog
    [ ("ইনপুট", "prompt"), ("জিজ্ঞাসা", "prompt"), ("সতর্কতা_বক্স", "alert"),
      ("সতর্কবার্তা", "alert"), ("নিশ্চিত", "confirm"), ("নিশ্চিত_করো", "confirm") ] ++
  rows .arrayMethod
    [ ("ঠেলো", "push"), ("ঢোকাও", "push"), ("তোলা", "pop"), ("বের_করো", "pop"),
      ("শিফট", "shift"), ("প্রথম_সরাও", "shift"), ("আনশিফট", "unshift"),
      ("প্রথমে_যোগ", "unshift"), ("কেটে_দাও", "splice"), ("কাটো", "splice"),
      ("খুঁজে", "find"), ("খুঁজো", "find"), ("খুঁজে_সূচক", "findIndex"),
      ("সূচক_খুঁজো", "findIndex"), ("ম্যাপ", "map"), ("ছাঁকনি", "filter"),
      ("ফিল্টার", "filter"), ("হ্রাস", "reduce"), ("জোড\u09bcা", "join"), ("ভাগ", "split"),
      ("সাজাও", "sort"), ("উল্টাও", "reverse"), ("প্রতিটিতে", "forEach"), ("কিছু", "some"),
      ("সব", "every"), ("অন্তর্ভুক্ত", "includes") ] ++
  rows .stringMethod
    [ ("দৈর্ঘ্য", "length"), ("বড\u09bcহাতের", "toUpperCase"), ("ছোটহাতের", "toLowerCase"),
      ("ছাঁটাই", "trim"), ("প্রতিস্থাপন", "replace"), ("খণ্ড", "slice"),
      ("উপস্ট্রিং", "substring"), ("সূচকে", "indexOf"), ("শেষ_সূচক", "lastIndexOf") ] ++
  rows .math
    [ ("গণিত", "Math"), ("পাই", "Math.PI"), ("বর্গমূল", "Math.sqrt"), ("শক্তি", "Math.pow"),
      ("পরম", "Math.abs"), ("সিলিং", "Math.ceil"), ("ফ্লোর", "Math.floor"),
      ("রাউন্ড", "Math.round"), ("সর্বোচ্চ", "Math.max"), ("সর্বনিম্ন", "Math.min"),
      ("এলোমেলো_সংখ্যা", "Math.random") ] ++
  rows .json
    [ ("শব্দসমূহ", "JSON.stringify"), ("পার্স", "JSON.parse"), ("বিশ্লেষণ", "JSON.parse") ] ++
  rows .dom
    [ ("দস্তাবেজ", "document"), ("ডকুমেন্ট", "document"), ("নথি", "document"),
      ("উইন্ডো", "window"), ("জানালা", "window"), ("বডি", "body"), ("শিরোনাম", "title"),
      ("আইডি_দ্বারা_পাও", "getElementById"), ("শ্রেণী_দ্বারা_পাও", "getElementsByClassName"),
      ("ট্যাগ_দ্বারা_পাও", "getElementsByTagName"), ("সিলেক্টর_দ্বারা_পাও", "querySelector"),
      ("সব_সিলেক্টর_দ্বারা_পাও", "querySelectorAll"), ("ইভেন্ট_শুনো", "addEventListener"),
      ("ইভেন্ট_যোগ_করো", "addEventListener"), ("ইভেন্ট_মুছো", "removeEventListener"),
      ("ইভেন্ট_অপসারণ_করো", "removeEventListener"), ("তৈরি_করো", "createElement"),
      ("যোগ_করো", "appendChild"), ("মুছ_ফেলো", "removeChild"), ("সেট_করো", "setAttribute"),
      ("যাপাও", "getAttribute"), ("ক্লাস_যোগ_করো", "classList.add"),
      ("ক্লাস_মুছো", "classList.remove"), ("ক্লাস_টগল_করো", "classList.toggle"),
      ("স্টাইল_প্রয\u09bcোগ_করো", "style"), ("শৈলী", "style"),
      ("বিষয\u09bcবস্তু_পরিবর্তন_করো", "innerHTML"), ("টেক্সট_পরিবর্তন_করো", "innerText"),
      ("রঙ", "color") ] ++
  rows .event
    [ ("ক্লিক", "click"), ("প্রস্তুত_অবস্থা", "readyState"), ("সম্পূর্ণ", "complete"),
      ("ডকুমেন্ট_সামগ্রী_লোডেড", "DOMContentLoaded") ] ++
  rows .logic
    [ ("এবংএবং", "&&"), ("অথবাঅথবা", "||"), ("না", "!"), ("নয\u09bc", "!") ] ++
  rows .comparison
    [ ("সমান", "==="), ("অসমান", "!=="), ("বড\u09bc", ">"), ("ছোট", "<"),
      ("বড\u09bc_বা_সমান", ">="), ("ছোট_বা_সমান", "<=") ]

/-- The rows under their canonical spellings. -/
def index : List (Text × Keyword) :=
  table.map fun k => (Script.canonicalize k.spelling, k)

/-- The first row whose spelling has the canonical form of `word`. -/
def find? (word : Text) : Option Keyword :=
  index.lookup (Script.canonicalize word)

/-- The spellings of a category, in table order. -/
def spellingsOf (c : Category) : List Text :=
  (table.filter (·.category = c)).map (·.spelling)

end Keyword
end BanglaSource
