/-!
# Letters, digits and capitals

The characters that are letters (category L) or decimal digits (category Nd), and the full
upper-case form of a text, in which one character may become several (`ß` becomes `SS`). A set of
characters is written as a line of code point ranges in hexadecimal: `20-7e a1-ac ae`.
-/

namespace TastyLang.Text

/-- The value of a hexadecimal digit in lower case. -/
def hexValue? (c : Char) : Option Nat :=
  if '0' ≤ c && c ≤ '9' then some (c.toNat - '0'.toNat)
  else if 'a' ≤ c && c ≤ 'f' then some (c.toNat - 'a'.toNat + 10)
  else none

/-- The value of a hexadecimal numeral; characters that are no digits are passed over. -/
def hexNumeral (cs : List Char) : Nat :=
  cs.foldl (fun n c => match hexValue? c with
    | some d => n * 16 + d
    | none => n) 0

/-- The numerals of `cs` cut at `sep`. -/
def hexPieces (sep : Char) (cs : List Char) : List Nat :=
  ((cs.splitOn sep).map hexNumeral)

/-- A closed range of code points. -/
structure CharRange where
  first : Nat
  last : Nat

/-- The ranges that lines of `first-last` and single code points describes. -/
def charRanges (lines : List String) : List CharRange :=
  (lines.flatMap fun line => line.toList.splitOn ' ').map fun word =>
    match hexPieces '-' word with
    | [n] => ⟨n, n⟩
    | n :: m :: _ => ⟨n, m⟩
    | [] => ⟨0, 0⟩

/-- Whether a code point lies in one of the ranges. -/
def inRanges (ranges : List CharRange) (n : Nat) : Bool :=
  ranges.any fun r => r.first ≤ n && n ≤ r.last

/-! ### Tables -/

/-- The code points of letters. -/
def letterLines : List String :=
  ["41-5a 61-7a aa b5 ba c0-d6 d8-f6 f8-2c1 2c6-2d1 2e0-2e4 2ec 2ee 370-374 376-377 37a-37d",
   "37f 386 388-38a 38c 38e-3a1 3a3-3f5 3f7-481 48a-52f 531-556 559 560-588 5d0-5ea 5ef-5f2",
   "620-64a 66e-66f 671-6d3 6d5 6e5-6e6 6ee-6ef 6fa-6fc 6ff 710 712-72f 74d-7a5 7b1 7ca-7ea",
   "7f4-7f5 7fa 800-815 81a 824 828 840-858 860-86a 870-887 889-88e 8a0-8c9 904-939 93d 950",
   "958-961 971-980 985-98c 98f-990 993-9a8 9aa-9b0 9b2 9b6-9b9 9bd 9ce 9dc-9dd 9df-9e1",
   "9f0-9f1 9fc a05-a0a a0f-a10 a13-a28 a2a-a30 a32-a33 a35-a36 a38-a39 a59-a5c a5e a72-a74",
   "a85-a8d a8f-a91 a93-aa8 aaa-ab0 ab2-ab3 ab5-ab9 abd ad0 ae0-ae1 af9 b05-b0c b0f-b10",
   "b13-b28 b2a-b30 b32-b33 b35-b39 b3d b5c-b5d b5f-b61 b71 b83 b85-b8a b8e-b90 b92-b95",
   "b99-b9a b9c b9e-b9f ba3-ba4 ba8-baa bae-bb9 bd0 c05-c0c c0e-c10 c12-c28 c2a-c39 c3d",
   "c58-c5a c5d c60-c61 c80 c85-c8c c8e-c90 c92-ca8 caa-cb3 cb5-cb9 cbd cdd-cde ce0-ce1",
   "cf1-cf2 d04-d0c d0e-d10 d12-d3a d3d d4e d54-d56 d5f-d61 d7a-d7f d85-d96 d9a-db1 db3-dbb",
   "dbd dc0-dc6 e01-e30 e32-e33 e40-e46 e81-e82 e84 e86-e8a e8c-ea3 ea5 ea7-eb0 eb2-eb3 ebd",
   "ec0-ec4 ec6 edc-edf f00 f40-f47 f49-f6c f88-f8c 1000-102a 103f 1050-1055 105a-105d 1061",
   "1065-1066 106e-1070 1075-1081 108e 10a0-10c5 10c7 10cd 10d0-10fa 10fc-1248 124a-124d",
   "1250-1256 1258 125a-125d 1260-1288 128a-128d 1290-12b0 12b2-12b5 12b8-12be 12c0 12c2-12c5",
   "12c8-12d6 12d8-1310 1312-1315 1318-135a 1380-138f 13a0-13f5 13f8-13fd 1401-166c 166f-167f",
   "1681-169a 16a0-16ea 16f1-16f8 1700-1711 171f-1731 1740-1751 1760-176c 176e-1770 1780-17b3",
   "17d7 17dc 1820-1878 1880-1884 1887-18a8 18aa 18b0-18f5 1900-191e 1950-196d 1970-1974",
   "1980-19ab 19b0-19c9 1a00-1a16 1a20-1a54 1aa7 1b05-1b33 1b45-1b4c 1b83-1ba0 1bae-1baf",
   "1bba-1be5 1c00-1c23 1c4d-1c4f 1c5a-1c7d 1c80-1c88 1c90-1cba 1cbd-1cbf 1ce9-1cec 1cee-1cf3",
   "1cf5-1cf6 1cfa 1d00-1dbf 1e00-1f15 1f18-1f1d 1f20-1f45 1f48-1f4d 1f50-1f57 1f59 1f5b 1f5d",
   "1f5f-1f7d 1f80-1fb4 1fb6-1fbc 1fbe 1fc2-1fc4 1fc6-1fcc 1fd0-1fd3 1fd6-1fdb 1fe0-1fec",
   "1ff2-1ff4 1ff6-1ffc 2071 207f 2090-209c 2102 2107 210a-2113 2115 2119-211d 2124 2126 2128",
   "212a-212d 212f-2139 213c-213f 2145-2149 214e 2183-2184 2c00-2ce4 2ceb-2cee 2cf2-2cf3",
   "2d00-2d25 2d27 2d2d 2d30-2d67 2d6f 2d80-2d96 2da0-2da6 2da8-2dae 2db0-2db6 2db8-2dbe",
   "2dc0-2dc6 2dc8-2dce 2dd0-2dd6 2dd8-2dde 2e2f 3005-3006 3031-3035 303b-303c 3041-3096",
   "309d-309f 30a1-30fa 30fc-30ff 3105-312f 3131-318e 31a0-31bf 31f0-31ff 3400-4dbf 4e00-a48c",
   "a4d0-a4fd a500-a60c a610-a61f a62a-a62b a640-a66e a67f-a69d a6a0-a6e5 a717-a71f a722-a788",
   "a78b-a7ca a7d0-a7d1 a7d3 a7d5-a7d9 a7f2-a801 a803-a805 a807-a80a a80c-a822 a840-a873",
   "a882-a8b3 a8f2-a8f7 a8fb a8fd-a8fe a90a-a925 a930-a946 a960-a97c a984-a9b2 a9cf a9e0-a9e4",
   "a9e6-a9ef a9fa-a9fe aa00-aa28 aa40-aa42 aa44-aa4b aa60-aa76 aa7a aa7e-aaaf aab1 aab5-aab6",
   "aab9-aabd aac0 aac2 aadb-aadd aae0-aaea aaf2-aaf4 ab01-ab06 ab09-ab0e ab11-ab16 ab20-ab26",
   "ab28-ab2e ab30-ab5a ab5c-ab69 ab70-abe2 ac00-d7a3 d7b0-d7c6 d7cb-d7fb f900-fa6d fa70-fad9",
   "fb00-fb06 fb13-fb17 fb1d fb1f-fb28 fb2a-fb36 fb38-fb3c fb3e fb40-fb41 fb43-fb44 fb46-fbb1",
   "fbd3-fd3d fd50-fd8f fd92-fdc7 fdf0-fdfb fe70-fe74 fe76-fefc ff21-ff3a ff41-ff5a ff66-ffbe",
   "ffc2-ffc7 ffca-ffcf ffd2-ffd7 ffda-ffdc 10000-1000b 1000d-10026 10028-1003a 1003c-1003d",
   "1003f-1004d 10050-1005d 10080-100fa 10280-1029c 102a0-102d0 10300-1031f 1032d-10340",
   "10342-10349 10350-10375 10380-1039d 103a0-103c3 103c8-103cf 10400-1049d 104b0-104d3",
   "104d8-104fb 10500-10527 10530-10563 10570-1057a 1057c-1058a 1058c-10592 10594-10595",
   "10597-105a1 105a3-105b1 105b3-105b9 105bb-105bc 10600-10736 10740-10755 10760-10767",
   "10780-10785 10787-107b0 107b2-107ba 10800-10805 10808 1080a-10835 10837-10838 1083c",
   "1083f-10855 10860-10876 10880-1089e 108e0-108f2 108f4-108f5 10900-10915 10920-10939",
   "10980-109b7 109be-109bf 10a00 10a10-10a13 10a15-10a17 10a19-10a35 10a60-10a7c 10a80-10a9c",
   "10ac0-10ac7 10ac9-10ae4 10b00-10b35 10b40-10b55 10b60-10b72 10b80-10b91 10c00-10c48",
   "10c80-10cb2 10cc0-10cf2 10d00-10d23 10e80-10ea9 10eb0-10eb1 10f00-10f1c 10f27 10f30-10f45",
   "10f70-10f81 10fb0-10fc4 10fe0-10ff6 11003-11037 11071-11072 11075 11083-110af 110d0-110e8",
   "11103-11126 11144 11147 11150-11172 11176 11183-111b2 111c1-111c4 111da 111dc 11200-11211",
   "11213-1122b 1123f-11240 11280-11286 11288 1128a-1128d 1128f-1129d 1129f-112a8 112b0-112de",
   "11305-1130c 1130f-11310 11313-11328 1132a-11330 11332-11333 11335-11339 1133d 11350",
   "1135d-11361 11400-11434 11447-1144a 1145f-11461 11480-114af 114c4-114c5 114c7 11580-115ae",
   "115d8-115db 11600-1162f 11644 11680-116aa 116b8 11700-1171a 11740-11746 11800-1182b",
   "118a0-118df 118ff-11906 11909 1190c-11913 11915-11916 11918-1192f 1193f 11941 119a0-119a7",
   "119aa-119d0 119e1 119e3 11a00 11a0b-11a32 11a3a 11a50 11a5c-11a89 11a9d 11ab0-11af8",
   "11c00-11c08 11c0a-11c2e 11c40 11c72-11c8f 11d00-11d06 11d08-11d09 11d0b-11d30 11d46",
   "11d60-11d65 11d67-11d68 11d6a-11d89 11d98 11ee0-11ef2 11f02 11f04-11f10 11f12-11f33 11fb0",
   "12000-12399 12480-12543 12f90-12ff0 13000-1342f 13441-13446 14400-14646 16800-16a38",
   "16a40-16a5e 16a70-16abe 16ad0-16aed 16b00-16b2f 16b40-16b43 16b63-16b77 16b7d-16b8f",
   "16e40-16e7f 16f00-16f4a 16f50 16f93-16f9f 16fe0-16fe1 16fe3 17000-187f7 18800-18cd5",
   "18d00-18d08 1aff0-1aff3 1aff5-1affb 1affd-1affe 1b000-1b122 1b132 1b150-1b152 1b155",
   "1b164-1b167 1b170-1b2fb 1bc00-1bc6a 1bc70-1bc7c 1bc80-1bc88 1bc90-1bc99 1d400-1d454",
   "1d456-1d49c 1d49e-1d49f 1d4a2 1d4a5-1d4a6 1d4a9-1d4ac 1d4ae-1d4b9 1d4bb 1d4bd-1d4c3",
   "1d4c5-1d505 1d507-1d50a 1d50d-1d514 1d516-1d51c 1d51e-1d539 1d53b-1d53e 1d540-1d544 1d546",
   "1d54a-1d550 1d552-1d6a5 1d6a8-1d6c0 1d6c2-1d6da 1d6dc-1d6fa 1d6fc-1d714 1d716-1d734",
   "1d736-1d74e 1d750-1d76e 1d770-1d788 1d78a-1d7a8 1d7aa-1d7c2 1d7c4-1d7cb 1df00-1df1e",
   "1df25-1df2a 1e030-1e06d 1e100-1e12c 1e137-1e13d 1e14e 1e290-1e2ad 1e2c0-1e2eb 1e4d0-1e4eb",
   "1e7e0-1e7e6 1e7e8-1e7eb 1e7ed-1e7ee 1e7f0-1e7fe 1e800-1e8c4 1e900-1e943 1e94b 1ee00-1ee03",
   "1ee05-1ee1f 1ee21-1ee22 1ee24 1ee27 1ee29-1ee32 1ee34-1ee37 1ee39 1ee3b 1ee42 1ee47 1ee49",
   "1ee4b 1ee4d-1ee4f 1ee51-1ee52 1ee54 1ee57 1ee59 1ee5b 1ee5d 1ee5f 1ee61-1ee62 1ee64",
   "1ee67-1ee6a 1ee6c-1ee72 1ee74-1ee77 1ee79-1ee7c 1ee7e 1ee80-1ee89 1ee8b-1ee9b 1eea1-1eea3",
   "1eea5-1eea9 1eeab-1eebb 20000-2a6df 2a700-2b739 2b740-2b81d 2b820-2cea1 2ceb0-2ebe0",
   "2f800-2fa1d 30000-3134a 31350-323af"]

/-- The code points of decimal digits. -/
def digitLines : List String :=
  ["30-39 660-669 6f0-6f9 7c0-7c9 966-96f 9e6-9ef a66-a6f ae6-aef b66-b6f be6-bef c66-c6f",
   "ce6-cef d66-d6f de6-def e50-e59 ed0-ed9 f20-f29 1040-1049 1090-1099 17e0-17e9 1810-1819",
   "1946-194f 19d0-19d9 1a80-1a89 1a90-1a99 1b50-1b59 1bb0-1bb9 1c40-1c49 1c50-1c59 a620-a629",
   "a8d0-a8d9 a900-a909 a9d0-a9d9 a9f0-a9f9 aa50-aa59 abf0-abf9 ff10-ff19 104a0-104a9",
   "10d30-10d39 11066-1106f 110f0-110f9 11136-1113f 111d0-111d9 112f0-112f9 11450-11459",
   "114d0-114d9 11650-11659 116c0-116c9 11730-11739 118e0-118e9 11950-11959 11c50-11c59",
   "11d50-11d59 11da0-11da9 11f50-11f59 16a60-16a69 16ac0-16ac9 16b50-16b59 1d7ce-1d7ff",
   "1e140-1e149 1e2f0-1e2f9 1e4f0-1e4f9 1e950-1e959 1fbf0-1fbf9"]

def letterRanges : List CharRange := charRanges letterLines

def digitRanges : List CharRange := charRanges digitLines

def isLetter (c : Char) : Bool :=
  if c.toNat < 0x80 then c.isAlpha else inRanges letterRanges c.toNat

def isDecimalDigit (c : Char) : Bool :=
  if c.toNat < 0x80 then c.isDigit else inRanges digitRanges c.toNat

/-- Runs of characters whose capital is one character: `first-last/step=capital of first`. -/
def capitalLines : List String :=
  ["61-7a/1=41 b5-b5/1=39c e0-f6/1=c0 f8-fe/1=d8 ff-ff/1=178 101-12f/2=100 131-131/1=49",
   "133-137/2=132 13a-148/2=139 14b-177/2=14a 17a-17e/2=179 17f-17f/1=53 180-180/1=243",
   "183-185/2=182 188-188/1=187 18c-18c/1=18b 192-192/1=191 195-195/1=1f6 199-199/1=198",
   "19a-19a/1=23d 19e-19e/1=220 1a1-1a5/2=1a0 1a8-1a8/1=1a7 1ad-1ad/1=1ac 1b0-1b0/1=1af",
   "1b4-1b6/2=1b3 1b9-1b9/1=1b8 1bd-1bd/1=1bc 1bf-1bf/1=1f7 1c5-1c5/1=1c4 1c6-1c6/1=1c4",
   "1c8-1c8/1=1c7 1c9-1c9/1=1c7 1cb-1cb/1=1ca 1cc-1cc/1=1ca 1ce-1dc/2=1cd 1dd-1dd/1=18e",
   "1df-1ef/2=1de 1f2-1f2/1=1f1 1f3-1f3/1=1f1 1f5-1f5/1=1f4 1f9-21f/2=1f8 223-233/2=222",
   "23c-23c/1=23b 23f-240/1=2c7e 242-242/1=241 247-24f/2=246 250-250/1=2c6f 251-251/1=2c6d",
   "252-252/1=2c70 253-253/1=181 254-254/1=186 256-257/1=189 259-259/1=18f 25b-25b/1=190",
   "25c-25c/1=a7ab 260-260/1=193 261-261/1=a7ac 263-263/1=194 265-265/1=a78d 266-266/1=a7aa",
   "268-268/1=197 269-269/1=196 26a-26a/1=a7ae 26b-26b/1=2c62 26c-26c/1=a7ad 26f-26f/1=19c",
   "271-271/1=2c6e 272-272/1=19d 275-275/1=19f 27d-27d/1=2c64 280-280/1=1a6 282-282/1=a7c5",
   "283-283/1=1a9 287-287/1=a7b1 288-288/1=1ae 289-289/1=244 28a-28b/1=1b1 28c-28c/1=245",
   "292-292/1=1b7 29d-29d/1=a7b2 29e-29e/1=a7b0 345-345/1=399 371-373/2=370 377-377/1=376",
   "37b-37d/1=3fd 3ac-3ac/1=386 3ad-3af/1=388 3b1-3c1/1=391 3c2-3c2/1=3a3 3c3-3cb/1=3a3",
   "3cc-3cc/1=38c 3cd-3ce/1=38e 3d0-3d0/1=392 3d1-3d1/1=398 3d5-3d5/1=3a6 3d6-3d6/1=3a0",
   "3d7-3d7/1=3cf 3d9-3ef/2=3d8 3f0-3f0/1=39a 3f1-3f1/1=3a1 3f2-3f2/1=3f9 3f3-3f3/1=37f",
   "3f5-3f5/1=395 3f8-3f8/1=3f7 3fb-3fb/1=3fa 430-44f/1=410 450-45f/1=400 461-481/2=460",
   "48b-4bf/2=48a 4c2-4ce/2=4c1 4cf-4cf/1=4c0 4d1-52f/2=4d0 561-586/1=531 10d0-10fa/1=1c90",
   "10fd-10ff/1=1cbd 13f8-13fd/1=13f0 1c80-1c80/1=412 1c81-1c81/1=414 1c82-1c82/1=41e",
   "1c83-1c84/1=421 1c85-1c85/1=422 1c86-1c86/1=42a 1c87-1c87/1=462 1c88-1c88/1=a64a",
   "1d79-1d79/1=a77d 1d7d-1d7d/1=2c63 1d8e-1d8e/1=a7c6 1e01-1e95/2=1e00 1e9b-1e9b/1=1e60",
   "1ea1-1eff/2=1ea0 1f00-1f07/1=1f08 1f10-1f15/1=1f18 1f20-1f27/1=1f28 1f30-1f37/1=1f38",
   "1f40-1f45/1=1f48 1f51-1f57/2=1f59 1f60-1f67/1=1f68 1f70-1f71/1=1fba 1f72-1f75/1=1fc8",
   "1f76-1f77/1=1fda 1f78-1f79/1=1ff8 1f7a-1f7b/1=1fea 1f7c-1f7d/1=1ffa 1f80-1f87/1=1f88",
   "1f90-1f97/1=1f98 1fa0-1fa7/1=1fa8 1fb0-1fb1/1=1fb8 1fb3-1fb3/1=1fbc 1fc3-1fc3/1=1fcc",
   "1ff3-1ff3/1=1ffc 1fbe-1fbe/1=399 1fd0-1fd1/1=1fd8 1fe0-1fe1/1=1fe8 1fe5-1fe5/1=1fec",
   "214e-214e/1=2132",
   "2170-217f/1=2160 2184-2184/1=2183 24d0-24e9/1=24b6 2c30-2c5f/1=2c00 2c61-2c61/1=2c60",
   "2c65-2c65/1=23a 2c66-2c66/1=23e 2c68-2c6c/2=2c67 2c73-2c73/1=2c72 2c76-2c76/1=2c75",
   "2c81-2ce3/2=2c80 2cec-2cee/2=2ceb 2cf3-2cf3/1=2cf2 2d00-2d25/1=10a0 2d27-2d27/1=10c7",
   "2d2d-2d2d/1=10cd a641-a66d/2=a640 a681-a69b/2=a680 a723-a72f/2=a722 a733-a76f/2=a732",
   "a77a-a77c/2=a779 a77f-a787/2=a77e a78c-a78c/1=a78b a791-a793/2=a790 a794-a794/1=a7c4",
   "a797-a7a9/2=a796 a7b5-a7c3/2=a7b4 a7c8-a7ca/2=a7c7 a7d1-a7d1/1=a7d0 a7d7-a7d9/2=a7d6",
   "a7f6-a7f6/1=a7f5 ab53-ab53/1=a7b3 ab70-abbf/1=13a0 ff41-ff5a/1=ff21 10428-1044f/1=10400",
   "104d8-104fb/1=104b0 10597-105a1/1=10570 105a3-105b1/1=1057c 105b3-105b9/1=1058c",
   "105bb-105bc/1=10594 10cc0-10cf2/1=10c80 118c0-118df/1=118a0 16e60-16e7f/1=16e40",
   "1e922-1e943/1=1e900"]

/-- Characters whose capital is several characters: `char=first+second+...`. -/
def expansionLines : List String :=
  ["df=53+53 149=2bc+4e 1f0=4a+30c 390=399+308+301 3b0=3a5+308+301 587=535+552 1e96=48+331",
   "1e97=54+308 1e98=57+30a 1e99=59+30a 1e9a=41+2be 1f50=3a5+313 1f52=3a5+313+300",
   "1f54=3a5+313+301 1f56=3a5+313+342 1f80=1f08+399 1f81=1f09+399 1f82=1f0a+399 1f83=1f0b+399",
   "1f84=1f0c+399 1f85=1f0d+399 1f86=1f0e+399 1f87=1f0f+399 1f88=1f08+399 1f89=1f09+399",
   "1f8a=1f0a+399 1f8b=1f0b+399 1f8c=1f0c+399 1f8d=1f0d+399 1f8e=1f0e+399 1f8f=1f0f+399",
   "1f90=1f28+399 1f91=1f29+399 1f92=1f2a+399 1f93=1f2b+399 1f94=1f2c+399 1f95=1f2d+399",
   "1f96=1f2e+399 1f97=1f2f+399 1f98=1f28+399 1f99=1f29+399 1f9a=1f2a+399 1f9b=1f2b+399",
   "1f9c=1f2c+399 1f9d=1f2d+399 1f9e=1f2e+399 1f9f=1f2f+399 1fa0=1f68+399 1fa1=1f69+399",
   "1fa2=1f6a+399 1fa3=1f6b+399 1fa4=1f6c+399 1fa5=1f6d+399 1fa6=1f6e+399 1fa7=1f6f+399",
   "1fa8=1f68+399 1fa9=1f69+399 1faa=1f6a+399 1fab=1f6b+399 1fac=1f6c+399 1fad=1f6d+399",
   "1fae=1f6e+399 1faf=1f6f+399 1fb2=1fba+399 1fb3=391+399 1fb4=386+399 1fb6=391+342",
   "1fb7=391+342+399 1fbc=391+399 1fc2=1fca+399 1fc3=397+399 1fc4=389+399 1fc6=397+342",
   "1fc7=397+342+399 1fcc=397+399 1fd2=399+308+300 1fd3=399+308+301 1fd6=399+342",
   "1fd7=399+308+342 1fe2=3a5+308+300 1fe3=3a5+308+301 1fe4=3a1+313 1fe6=3a5+342",
   "1fe7=3a5+308+342 1ff2=1ffa+399 1ff3=3a9+399 1ff4=38f+399 1ff6=3a9+342 1ff7=3a9+342+399",
   "1ffc=3a9+399 fb00=46+46 fb01=46+49 fb02=46+4c fb03=46+46+49 fb04=46+46+4c fb05=53+54",
   "fb06=53+54 fb13=544+546 fb14=544+535 fb15=544+53b fb16=54e+546 fb17=544+53d"]

/-- Every `step`-th character from `first` to `last` has its capital at the same distance. -/
structure CapitalRun where
  first : Nat
  last : Nat
  step : Nat
  capital : Nat

def capitalRuns : List CapitalRun :=
  (capitalLines.flatMap fun line => line.toList.splitOn ' ').map fun word =>
    match word.splitOn '=' with
    | run :: capital :: _ =>
      match run.splitOn '/' with
      | range :: step :: _ =>
        match hexPieces '-' range with
        | first :: last :: _ => ⟨first, last, hexNumeral step, hexNumeral capital⟩
        | _ => ⟨0, 0, 1, 0⟩
      | _ => ⟨0, 0, 1, 0⟩
    | _ => ⟨0, 0, 1, 0⟩

def expansions : List (Nat × List Char) :=
  (expansionLines.flatMap fun line => line.toList.splitOn ' ').map fun word =>
    match word.splitOn '=' with
    | char :: capitals :: _ => (hexNumeral char, (hexPieces '+' capitals).map Char.ofNat)
    | _ => (0, [])

/-- The capital letter of a letter that has one. -/
def capital (c : Char) : Char :=
  let n := c.toNat
  if n < 0x80 then c.toUpper
  else
    match capitalRuns.find? fun r => r.first ≤ n && n ≤ r.last && (n - r.first) % r.step == 0 with
    | some r => Char.ofNat (r.capital + (n - r.first))
    | none => c

/-- The capital form of a character, which may be longer than one. -/
def capitals (c : Char) : List Char :=
  match expansions.find? fun e => e.1 == c.toNat with
  | some (_, cs) => cs
  | none => [capital c]

def upperCase (s : String) : String := String.ofList (s.toList.flatMap capitals)

end TastyLang.Text
