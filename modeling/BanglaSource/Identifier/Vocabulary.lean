-- SUMMARY: Curated Latin spellings of common whole words.
import BanglaSource.Script.Canonical

/-!
# Vocabulary

Natural Latin spellings for common words, which take precedence over spelling a
word letter by letter. Words are compared in canonical form.
-/
namespace BanglaSource.Vocabulary

/-- Each word with its Latin spelling. -/
def table : List (Text × Text) :=
  List.map (fun (word, latin) => (String.toList word, String.toList latin))
    [ ("পরিবার", "paribar"), ("নাম", "nam"), ("বয\u09bcস", "boyos"), ("ফলাফল", "folafol"),
      ("শুভেচ্ছা", "shubhochcha"), ("যোগফল", "jogfol"), ("বাক্য", "bakyo"),
      ("ব্যবহারকারী", "byabaharkari"), ("ছাত্র", "chhatro"), ("শিক্ষক", "shikkhok"),
      ("মানুষ", "manush"), ("গ্রাহক", "grahok"), ("কর্মী", "kormi"), ("পণ্য", "ponno"),
      ("বই", "boi"), ("গাড\u09bcি", "gari"), ("ঠিকানা", "thikana"), ("ফোন", "phone"),
      ("ইমেল", "email"), ("পাসওয\u09bcার্ড", "password"), ("অ্যাকাউন্ট", "account"),
      ("বোতাম", "button"), ("ফর্ম", "form"), ("ইনপুট", "input"), ("বাটন", "button"),
      ("লেবেল", "label"), ("ছবি", "chobi"), ("চিত্র", "chitra"), ("টেক্সট", "text"),
      ("বার্তা", "message"), ("বার্তাসমূহ", "bartasomuho"), ("সংখ্যা", "songkha"),
      ("গণনা", "gonona"), ("গড\u09bc", "gor"), ("গুন", "gun"), ("ভাগ", "vag"),
      ("বিয\u09bcোগ", "biyog"), ("তালিকা", "talika"), ("অ্যারে", "array"),
      ("অবজেক্ট", "object"), ("ডাটা", "data"), ("সম\u09df", "shomoy"), ("তারিখ", "tarikh"),
      ("দিন", "din"), ("মাস", "mas"), ("বছর", "bochor"), ("মুহূর্ত", "muhurt"),
      ("ঘণ্টা", "ghonta"), ("সেকেন্ড", "second"), ("অবস্থা", "obostha"), ("শর্ত", "shorot"),
      ("গণিত", "gonit"), ("পরীক্ষা", "porikkha"), ("ফল", "fol"), ("উত্তর", "response"),
      ("প্রশ্ন", "proshno"), ("মন্তব্য", "comment"), ("বিবরণ", "bibron"), ("যোগ", "jog"),
      ("চালাও", "chalaw"), ("দেখাও", "dekhaw"), ("লিখো", "likho"), ("নাও", "nao"),
      ("পাঠাও", "pathaw"), ("ফিরিয\u09bcে_দাও", "feriye_dao"), ("সংরক্ষণ", "songrokkhon"),
      ("সম্পাদনা", "shompodona"), ("মুছে_ফেলো", "muche_felo"), ("ফাইল", "file"),
      ("ফোল্ডার", "folder"), ("নেটও\u09dfার্ক", "network"), ("অনুরোধ", "onurodh"),
      ("ইউআরএল", "url"), ("সার্ভার", "server"), ("ডাটাবেস", "database"),
      ("সংযোগ", "shongjog"), ("সংরক্ষিত", "stored"), ("লগইন", "login"), ("লগআউট", "logout"),
      ("নিবন্ধন", "register"), ("প্রমাণীকরণ", "auth"), ("টোকেন", "token"),
      ("ব্যবহার", "use"), ("লোডিং", "loading"), ("ত্রুটি", "error"), ("সাফল্য", "success"),
      ("সতর্কতা", "warning"), ("শহর", "shohor"), ("দেশ", "desh"), ("ঠিক", "thik"),
      ("লিংক", "link"), ("ছাত্রছাত্রী", "chhatrochhatri"), ("প্রকল্প", "projokt") ]

/-- The table under canonical spellings. -/
def index : List (Text × Text) :=
  table.map fun (word, latin) => (Script.canonicalize word, latin)

/-- The Latin spelling of a whole word, if it is listed. -/
def find? (word : Text) : Option Text :=
  index.lookup (Script.canonicalize word)

end BanglaSource.Vocabulary
