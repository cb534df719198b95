import Fabula.Text.CodeSet

/-! The data of case mapping: which characters have case, which are passed over when a word is
scanned for case, and the two mappings beyond ASCII as runs of equally spaced pairs. -/

namespace Fabula.Text

/-- Characters that have case. -/
def cased : CodeSet := CodeSet.ofLines [
  "41 19 7 19 30 0 b 0 5 0 6 16 2 1e 2 c2 2 3 5 cf 3 22 8 1 1f 4 61 0 2b 3 3 1 3 3 2 0 7 0 2 2",
  "2 0 2 13 2 52 2 8a 9 a5 2 25 a 28 b18 25 2 0 6 0 3 2a 2 3 2a1 55 3 5 883 a 6 2a 3 2 41 bf 41",
  "115 3 5 3 25 3 5 3 7 2 0 2 0 2 0 2 1e 3 34 2 6 2 0 4 2 2 6 4 3 3 5 5 c 6 2 2 6 75 0 e 0 11 c",
  "66 0 5 0 3 9 2 0 4 4 7 0 2 0 2 0 2 3 2 5 5 0 3 3 6 4 5 0 12 1f 4 1 332 33 717 e4 7 3 4 1 d",
  "25 2 0 6 0 7913 2d 13 1d 85 65 4 3 2 4c 15 5 2 2 336 2a 2 d 7 4f 4f41 6 d 4 40a 19 7 19 4a6",
  "4f 61 23 5 23 75 a 2 e 2 6 2 1 2 a 2 e 2 6 2 1 1c4 0 3 2 2 29 2 8 4c6 32 e 32 5e 15 b 15 b1b",
  "3f 5561 3f 21 18 3 18 652d 54 2 46 2 1 3 0 3 1 3 3 2 b 2 0 2 6 2 40 2 3 3 7 2 6 2 1b 2 3 2 4",
  "2 0 4 6 2 153 3 18 2 18 2 1e 2 18 2 1e 2 18 2 1e 2 18 2 1e 2 18 2 7 735 9 2 13 7 5 106 3d",
  "893 43 7ed 19 7 19 7 19"]

/-- Characters that a scan for cased neighbours passes over. -/
def caseIgnorable : CodeSet := CodeSet.ofLines [
  "27 0 7 0 c 0 24 0 2 0 48 0 5 0 2 0 5 0 3 1 1f8 bf 5 1 5 0 a 1 2 0 fc 6 d0 0 6 0 32 2c 2 0 2",
  "1 2 1 2 0 2d 0 c 5 b a 2 0 24 0 b 14 11 0 66 7 2 9 2 3 22 0 2 0 1f 1a 5c a 3b a 5 0 3 0 19",
  "17 2c 2 2d 0 8 1 6 8 2a 39 38 0 2 0 5 7 5 0 4 6 b 1 e 0 10 0 3b 0 5 3 9 0 15 1 1b 0 3 1 3a 0",
  "5 1 5 1 3 2 4 0 1f 1 4 0 c 1 3a 0 5 4 2 1 5 0 15 1 17 5 2 0 3b 0 3 0 2 3 9 0 8 1 c 1 1f 0 3e",
  "0 d 0 33 0 4 0 38 0 2 2 6 2 2 3 8 1 c 1 1e 0 3b 0 3 0 7 0 6 1 15 1 1d 1 3a 1 5 3 9 0 15 1 1e",
  "0 49 0 8 2 2 0 5b 0 3 6 c 8 63 0 3 8 a 0 2 6 4a 1 1c 0 2 0 2 0 38 d 2 4 2 1 6 a 2 23 a 0 67",
  "3 2 5 2 1 3 1 1a 1 5 2 11 3 e 0 3 1 7 0 10 0 5f 0 261 2 3b3 2 1e 1 1f 1 1f 1 41 1 2 6 9 0 3",
  "a 4 0 6 0 2e 4 34 0 42 1 23 0 77 2 5 1 a 0 7 2 dc 1 3 0 3b 0 2 6 2 0 2 0 3 7 7 9 3 0 28 0 9",
  "2d 3 b 15 3 31 0 2 4 2 0 6 0 29 8 d 1 21 3 3 1 2 2 39 0 2 1 4 0 2 2 3b 7 3 1 41 5 53 2 2 c 2",
  "6 5 0 7 0 4 1 33 3e e 0 23 64 1be 0 2 2 c 2 e 2 e 2 e 1 d 4 9 1 b 0 3 0 3 4 32 4 2 9 2 0 e 0",
  "11 c 34 20 b8c 1 72 2 7e 0 10 0 61 1f 30 0 1d6 0 25 3 4 4 6 0 5e 5 5e 2 6f17 0 4e3 5 10f 0",
  "63 3 2 9 2 0 1d 3 51 1 f 21 4f 0 18 2 67 3 4 1 9 0 4 0 5 0 1a 1 6 0 98 1 1b 11 e 0 27 7 1a a",
  "2f 2 31 0 3 3 3 1 12 0 16 1 43 5 3 1 3 1 d 0 9 0 24 0 c 0 34 0 2 2 3 1 6 1 2 0 1c 0 f 1 6 1",
  "2 0 65 4 a 2 7a 0 3 0 5 0 4f31 0 94 10 23e f 4 0 d f 23 0 3 0 aa 0 8 0 7 0 c 0 24 0 2 0 30 0",
  "2e 1 44 0 16 2 202 0 e3 0 96 4 406 5 2 29 2 8 247 2 2 1 6 3 29 2 5 0 a6 1 23e 3 27 0 1b 4 2",
  "0 13c 1 19 0 35 5 47 a 32 3 7c 0 37 e 2a 0 3 1 b 2 32 3 3 1 3 0 5 0 b 0 33 2 25 4 2 7 3f 0 d",
  "1 35 8 b 3 3 0 60 2 3 0 2 1 7 0 3 0 9e 0 4 7 16 1 3a 1 4 0 26 6 4 4 47 5 e 0 2 0 2 0 f 1 56",
  "7 3 2 2 0 18 0 55 5 2 0 5 1 2 1 ef 3 7 1 2 1 1c 1 56 7 3 0 2 1 6b 0 2 0 3 5 2 0 66 0 2 0 3 3",
  "2 4 104 8 2 1 101 1 2 0 5 0 91 3 3 1 5 0 21 9 29 5 3 3 9 0 a 5 3 2 2f c 2 1 c7 0 2 2 2 0 ca",
  "6 2 5 2 0 53 15 3 6 2 1 2 1 7b 5 4 0 2 1 2 6 2 0 49 1 4 0 2 0 42 0 11a 1 c 1 35 4 6 0 2 0 18",
  "0 14d6 10 7 e 2cc9 b 4 2 9c1 4 3c 6 a 3 1fd 2 29 1 1e3 0 40 10 41 1 2 1 e 1 3ffd 3 2 6 2 1",
  "c9f 1 2 3 125d 2d 3 16 221 2 a f 3 6 1f 3 95 2 7bc 36 5 31 9 0 f 0 17 4 2 e 551 6 2 10 3 6 2",
  "1 2 4 6 3d 22 0 a1 d 171 0 3e 3 1fc 4 ff 1 f4 0 3 0 8 1 6 0 a 0 1d1 6 6e 7 ab0 4 c0c02 0 1f",
  "5f 81 ef"]

/-- Runs of single-character lower-case mappings: first source, count, step, first target. -/
def lowerRuns : List CaseRun := CaseRun.ofLines [
  "c0 17 1 e0 d8 7 1 f8 100 18 2 101 132 3 2 133 139 8 2 13a 14a 17 2 14b 178 1 1 ff 179 3 2",
  "17a 181 1 1 253 182 2 2 183 186 1 1 254 187 1 1 188 189 2 1 256 18b 1 1 18c 18e 1 1 1dd 18f",
  "1 1 259 190 1 1 25b 191 1 1 192 193 1 1 260 194 1 1 263 196 1 1 269 197 1 1 268 198 1 1 199",
  "19c 1 1 26f 19d 1 1 272 19f 1 1 275 1a0 3 2 1a1 1a6 1 1 280 1a7 1 1 1a8 1a9 1 1 283 1ac 1 1",
  "1ad 1ae 1 1 288 1af 1 1 1b0 1b1 2 1 28a 1b3 2 2 1b4 1b7 1 1 292 1b8 1 1 1b9 1bc 1 1 1bd 1c4",
  "1 1 1c6 1c5 1 1 1c6 1c7 1 1 1c9 1c8 1 1 1c9 1ca 1 1 1cc 1cb 9 2 1cc 1de 9 2 1df 1f1 1 1 1f3",
  "1f2 2 2 1f3 1f6 1 1 195 1f7 1 1 1bf 1f8 14 2 1f9 220 1 1 19e 222 9 2 223 23a 1 1 2c65 23b 1",
  "1 23c 23d 1 1 19a 23e 1 1 2c66 241 1 1 242 243 1 1 180 244 1 1 289 245 1 1 28c 246 5 2 247",
  "370 2 2 371 376 1 1 377 37f 1 1 3f3 386 1 1 3ac 388 3 1 3ad 38c 1 1 3cc 38e 2 1 3cd 391 11 1",
  "3b1 3a3 9 1 3c3 3cf 1 1 3d7 3d8 c 2 3d9 3f4 1 1 3b8 3f7 1 1 3f8 3f9 1 1 3f2 3fa 1 1 3fb 3fd",
  "3 1 37b 400 10 1 450 410 20 1 430 460 11 2 461 48a 1b 2 48b 4c0 1 1 4cf 4c1 7 2 4c2 4d0 30 2",
  "4d1 531 26 1 561 10a0 26 1 2d00 10c7 1 1 2d27 10cd 1 1 2d2d 13a0 50 1 ab70 13f0 6 1 13f8",
  "1c89 1 1 1c8a 1c90 2b 1 10d0 1cbd 3 1 10fd 1e00 4b 2 1e01 1e9e 1 1 df 1ea0 30 2 1ea1 1f08 8",
  "1 1f00 1f18 6 1 1f10 1f28 8 1 1f20 1f38 8 1 1f30 1f48 6 1 1f40 1f59 4 2 1f51 1f68 8 1 1f60",
  "1f88 8 1 1f80 1f98 8 1 1f90 1fa8 8 1 1fa0 1fb8 2 1 1fb0 1fba 2 1 1f70 1fbc 1 1 1fb3 1fc8 4 1",
  "1f72 1fcc 1 1 1fc3 1fd8 2 1 1fd0 1fda 2 1 1f76 1fe8 2 1 1fe0 1fea 2 1 1f7a 1fec 1 1 1fe5",
  "1ff8 2 1 1f78 1ffa 2 1 1f7c 1ffc 1 1 1ff3 2126 1 1 3c9 212a 1 1 6b 212b 1 1 e5 2132 1 1 214e",
  "2160 10 1 2170 2183 1 1 2184 24b6 1a 1 24d0 2c00 30 1 2c30 2c60 1 1 2c61 2c62 1 1 26b 2c63 1",
  "1 1d7d 2c64 1 1 27d 2c67 3 2 2c68 2c6d 1 1 251 2c6e 1 1 271 2c6f 1 1 250 2c70 1 1 252 2c72 1",
  "1 2c73 2c75 1 1 2c76 2c7e 2 1 23f 2c80 32 2 2c81 2ceb 2 2 2cec 2cf2 1 1 2cf3 a640 17 2 a641",
  "a680 e 2 a681 a722 7 2 a723 a732 1f 2 a733 a779 2 2 a77a a77d 1 1 1d79 a77e 5 2 a77f a78b 1",
  "1 a78c a78d 1 1 265 a790 2 2 a791 a796 a 2 a797 a7aa 1 1 266 a7ab 1 1 25c a7ac 1 1 261 a7ad",
  "1 1 26c a7ae 1 1 26a a7b0 1 1 29e a7b1 1 1 287 a7b2 1 1 29d a7b3 1 1 ab53 a7b4 8 2 a7b5 a7c4",
  "1 1 a794 a7c5 1 1 282 a7c6 1 1 1d8e a7c7 2 2 a7c8 a7cb 1 1 264 a7cc 8 2 a7cd a7dc 1 1 19b",
  "a7f5 1 1 a7f6 ff21 1a 1 ff41 10400 28 1 10428 104b0 24 1 104d8 10570 b 1 10597 1057c f 1",
  "105a3 1058c 7 1 105b3 10594 2 1 105bb 10c80 33 1 10cc0 10d50 16 1 10d70 118a0 20 1 118c0",
  "16e40 20 1 16e60 16ea0 19 1 16ebb 1e900 22 1 1e922"]

/-- Runs of single-character upper-case mappings. -/
def upperRuns : List CaseRun := CaseRun.ofLines [
  "b5 1 1 39c e0 17 1 c0 f8 7 1 d8 ff 1 1 178 101 18 2 100 131 1 1 49 133 3 2 132 13a 8 2 139",
  "14b 17 2 14a 17a 3 2 179 17f 1 1 53 180 1 1 243 183 2 2 182 188 1 1 187 18c 1 1 18b 192 1 1",
  "191 195 1 1 1f6 199 1 1 198 19a 1 1 23d 19b 1 1 a7dc 19e 1 1 220 1a1 3 2 1a0 1a8 1 1 1a7 1ad",
  "1 1 1ac 1b0 1 1 1af 1b4 2 2 1b3 1b9 1 1 1b8 1bd 1 1 1bc 1bf 1 1 1f7 1c5 1 1 1c4 1c6 1 1 1c4",
  "1c8 1 1 1c7 1c9 1 1 1c7 1cb 1 1 1ca 1cc 1 1 1ca 1ce 8 2 1cd 1dd 1 1 18e 1df 9 2 1de 1f2 1 1",
  "1f1 1f3 1 1 1f1 1f5 1 1 1f4 1f9 14 2 1f8 223 9 2 222 23c 1 1 23b 23f 2 1 2c7e 242 1 1 241",
  "247 5 2 246 250 1 1 2c6f 251 1 1 2c6d 252 1 1 2c70 253 1 1 181 254 1 1 186 256 2 1 189 259 1",
  "1 18f 25b 1 1 190 25c 1 1 a7ab 260 1 1 193 261 1 1 a7ac 263 1 1 194 264 1 1 a7cb 265 1 1",
  "a78d 266 1 1 a7aa 268 1 1 197 269 1 1 196 26a 1 1 a7ae 26b 1 1 2c62 26c 1 1 a7ad 26f 1 1 19c",
  "271 1 1 2c6e 272 1 1 19d 275 1 1 19f 27d 1 1 2c64 280 1 1 1a6 282 1 1 a7c5 283 1 1 1a9 287 1",
  "1 a7b1 288 1 1 1ae 289 1 1 244 28a 2 1 1b1 28c 1 1 245 292 1 1 1b7 29d 1 1 a7b2 29e 1 1 a7b0",
  "345 1 1 399 371 2 2 370 377 1 1 376 37b 3 1 3fd 3ac 1 1 386 3ad 3 1 388 3b1 11 1 391 3c2 1 1",
  "3a3 3c3 9 1 3a3 3cc 1 1 38c 3cd 2 1 38e 3d0 1 1 392 3d1 1 1 398 3d5 1 1 3a6 3d6 1 1 3a0 3d7",
  "1 1 3cf 3d9 c 2 3d8 3f0 1 1 39a 3f1 1 1 3a1 3f2 1 1 3f9 3f3 1 1 37f 3f5 1 1 395 3f8 1 1 3f7",
  "3fb 1 1 3fa 430 20 1 410 450 10 1 400 461 11 2 460 48b 1b 2 48a 4c2 7 2 4c1 4cf 1 1 4c0 4d1",
  "30 2 4d0 561 26 1 531 10d0 2b 1 1c90 10fd 3 1 1cbd 13f8 6 1 13f0 1c80 1 1 412 1c81 1 1 414",
  "1c82 1 1 41e 1c83 2 1 421 1c85 1 1 422 1c86 1 1 42a 1c87 1 1 462 1c88 1 1 a64a 1c8a 1 1 1c89",
  "1d79 1 1 a77d 1d7d 1 1 2c63 1d8e 1 1 a7c6 1e01 4b 2 1e00 1e9b 1 1 1e60 1ea1 30 2 1ea0 1f00 8",
  "1 1f08 1f10 6 1 1f18 1f20 8 1 1f28 1f30 8 1 1f38 1f40 6 1 1f48 1f51 4 2 1f59 1f60 8 1 1f68",
  "1f70 2 1 1fba 1f72 4 1 1fc8 1f76 2 1 1fda 1f78 2 1 1ff8 1f7a 2 1 1fea 1f7c 2 1 1ffa 1fb0 2 1",
  "1fb8 1fbe 1 1 399 1fd0 2 1 1fd8 1fe0 2 1 1fe8 1fe5 1 1 1fec 214e 1 1 2132 2170 10 1 2160",
  "2184 1 1 2183 24d0 1a 1 24b6 2c30 30 1 2c00 2c61 1 1 2c60 2c65 1 1 23a 2c66 1 1 23e 2c68 3 2",
  "2c67 2c73 1 1 2c72 2c76 1 1 2c75 2c81 32 2 2c80 2cec 2 2 2ceb 2cf3 1 1 2cf2 2d00 26 1 10a0",
  "2d27 1 1 10c7 2d2d 1 1 10cd a641 17 2 a640 a681 e 2 a680 a723 7 2 a722 a733 1f 2 a732 a77a 2",
  "2 a779 a77f 5 2 a77e a78c 1 1 a78b a791 2 2 a790 a794 1 1 a7c4 a797 a 2 a796 a7b5 8 2 a7b4",
  "a7c8 2 2 a7c7 a7cd 8 2 a7cc a7f6 1 1 a7f5 ab53 1 1 a7b3 ab70 50 1 13a0 ff41 1a 1 ff21 10428",
  "28 1 10400 104d8 24 1 104b0 10597 b 1 10570 105a3 f 1 1057c 105b3 7 1 1058c 105bb 2 1 10594",
  "10cc0 33 1 10c80 10d70 16 1 10d50 118c0 20 1 118a0 16e60 20 1 16e40 16ebb 19 1 16ea0 1e922",
  "22 1 1e900"]

/-- Lower-case mappings to several characters: source, count, targets. -/
def lowerExpansions : List (Nat × List Nat) := expansionsOfLines [
  "130 2 69 307"]

/-- Upper-case mappings to several characters. -/
def upperExpansions : List (Nat × List Nat) := expansionsOfLines [
  "df 2 53 53 149 2 2bc 4e 1f0 2 4a 30c 390 3 399 308 301 3b0 3 3a5 308 301 587 2 535 552 1e96",
  "2 48 331 1e97 2 54 308 1e98 2 57 30a 1e99 2 59 30a 1e9a 2 41 2be 1f50 2 3a5 313 1f52 3 3a5",
  "313 300 1f54 3 3a5 313 301 1f56 3 3a5 313 342 1f80 2 1f08 399 1f81 2 1f09 399 1f82 2 1f0a",
  "399 1f83 2 1f0b 399 1f84 2 1f0c 399 1f85 2 1f0d 399 1f86 2 1f0e 399 1f87 2 1f0f 399 1f88 2",
  "1f08 399 1f89 2 1f09 399 1f8a 2 1f0a 399 1f8b 2 1f0b 399 1f8c 2 1f0c 399 1f8d 2 1f0d 399",
  "1f8e 2 1f0e 399 1f8f 2 1f0f 399 1f90 2 1f28 399 1f91 2 1f29 399 1f92 2 1f2a 399 1f93 2 1f2b",
  "399 1f94 2 1f2c 399 1f95 2 1f2d 399 1f96 2 1f2e 399 1f97 2 1f2f 399 1f98 2 1f28 399 1f99 2",
  "1f29 399 1f9a 2 1f2a 399 1f9b 2 1f2b 399 1f9c 2 1f2c 399 1f9d 2 1f2d 399 1f9e 2 1f2e 399",
  "1f9f 2 1f2f 399 1fa0 2 1f68 399 1fa1 2 1f69 399 1fa2 2 1f6a 399 1fa3 2 1f6b 399 1fa4 2 1f6c",
  "399 1fa5 2 1f6d 399 1fa6 2 1f6e 399 1fa7 2 1f6f 399 1fa8 2 1f68 399 1fa9 2 1f69 399 1faa 2",
  "1f6a 399 1fab 2 1f6b 399 1fac 2 1f6c 399 1fad 2 1f6d 399 1fae 2 1f6e 399 1faf 2 1f6f 399",
  "1fb2 2 1fba 399 1fb3 2 391 399 1fb4 2 386 399 1fb6 2 391 342 1fb7 3 391 342 399 1fbc 2 391",
  "399 1fc2 2 1fca 399 1fc3 2 397 399 1fc4 2 389 399 1fc6 2 397 342 1fc7 3 397 342 399 1fcc 2",
  "397 399 1fd2 3 399 308 300 1fd3 3 399 308 301 1fd6 2 399 342 1fd7 3 399 308 342 1fe2 3 3a5",
  "308 300 1fe3 3 3a5 308 301 1fe4 2 3a1 313 1fe6 2 3a5 342 1fe7 3 3a5 308 342 1ff2 2 1ffa 399",
  "1ff3 2 3a9 399 1ff4 2 38f 399 1ff6 2 3a9 342 1ff7 3 3a9 342 399 1ffc 2 3a9 399 fb00 2 46 46",
  "fb01 2 46 49 fb02 2 46 4c fb03 3 46 46 49 fb04 3 46 46 4c fb05 2 53 54 fb06 2 53 54 fb13 2",
  "544 546 fb14 2 544 535 fb15 2 544 53b fb16 2 54e 546 fb17 2 544 53d"]

end Fabula.Text
