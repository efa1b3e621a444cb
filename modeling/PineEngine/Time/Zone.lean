import PineEngine.Text.Blank

/-! # Time zones

The offset of each time zone from universal time, in minutes to the east: the mean time of the place that
was kept before zones were introduced, rounded to minutes. Names are matched without regard to case.
-/

namespace PineEngine.Time

def zoneTable : String := "
  Africa/ Abidjan -16 Accra -1 Addis_Ababa 155 Algiers 12 Asmara 156 Asmera 156 Bamako -32 Bangui 74 Banjul -67
  Bissau -62 Blantyre 140 Brazzaville 61 Bujumbura 117 Cairo 125 Casablanca -30 Ceuta -21 Conakry -55 Dakar -70
  Dar_es_Salaam 157 Djibouti 173 Douala 39 El_Aaiun -53 Freetown -53 Gaborone 104 Harare 124 Johannesburg 112 Juba
  126 Kampala 130 Khartoum 130 Kigali 120 Kinshasa 61 Lagos 14 Libreville 38 Lome 5 Luanda 53 Lubumbashi 110 Lusaka
  113 Malabo 35 Maputo 130 Maseru 110 Mbabane 124 Mogadishu 181 Monrovia -43 Nairobi 147 Ndjamena 60 Niamey 8
  Nouakchott -64 Ouagadougou -6 Porto-Novo 10 Sao_Tome 27 Timbuktu -32 Tripoli 53 Tunis 41 Windhoek 68 America/ Adak
  733 Anchorage 840 Anguilla -252 Antigua -247 Araguaina -193 Aruba -280 Asuncion -231 Atikokan -366 Atka 733 Bahia
  -154 Bahia_Banderas -421 Barbados -238 Belem -194 Belize -353 Blanc-Sablon -228 Boa_Vista -243 Bogota -296 Boise
  -465 Buenos_Aires -234 Cambridge_Bay 0 Campo_Grande -218 Cancun -347 Caracas -268 Catamarca -263 Cayenne -209
  Cayman -326 Chicago -351 Chihuahua -424 Ciudad_Juarez -426 Coral_Harbour -366 Cordoba -257 Costa_Rica -336
  Coyhaique -288 Creston -466 Cuiaba -224 Curacao -276 Danmarkshavn -75 Dawson -558 Dawson_Creek -481 Denver -420
  Detroit -332 Dominica -246 Edmonton -454 Eirunepe -279 El_Salvador -357 Ensenada -468 Fort_Nelson -491 Fort_Wayne
  -345 Fortaleza -154 Glace_Bay -240 Godthab -207 Goose_Bay -242 Grand_Turk -285 Grenada -247 Guadeloupe -246
  Guatemala -362 Guayaquil -319 Guyana -233 Halifax -254 Havana -329 Hermosillo -444 Indianapolis -345 Inuvik 0
  Iqaluit 0 Jamaica -307 Jujuy -261 Juneau 902 Knox_IN -346 Kralendijk -276 La_Paz -273 Lima -308 Los_Angeles -473
  Louisville -343 Lower_Princes -276 Maceio -143 Managua -345 Manaus -240 Marigot -246 Martinique -244 Matamoros -390
  Mazatlan -426 Mendoza -275 Menominee -350 Merida -358 Metlakatla 914 Mexico_City -397 Miquelon -225 Moncton -259
  Monterrey -401 Montevideo -225 Montreal -318 Montserrat -249 Nassau -309 New_York -296 Nipigon -318 Nome 778
  Noronha -130 Nuuk -207 Ojinaga -418 Panama -318 Pangnirtung 0 Paramaribo -221 Phoenix -448 Port-au-Prince -289
  Port_of_Spain -246 Porto_Acre -271 Porto_Velho -256 Puerto_Rico -264 Punta_Arenas -284 Rainy_River -389
  Rankin_Inlet 0 Recife -140 Regina -419 Resolute 0 Rio_Branco -271 Rosario -257 Santa_Isabel -468 Santarem -219
  Santiago -283 Santo_Domingo -280 Sao_Paulo -186 Scoresbysund -88 Shiprock -420 Sitka 899 St_Barthelemy -246
  St_Johns -211 St_Kitts -251 St_Lucia -244 St_Thomas -260 St_Vincent -245 Swift_Current -431 Tegucigalpa -349 Thule
  -275 Thunder_Bay -318 Tijuana -468 Toronto -318 Tortola -258 Vancouver -492 Virgin -260 Whitehorse -540 Winnipeg
  -389 Yakutat 881 Yellowknife -454 Asia/ Aden 180 Almaty 308 Amman 144 Anadyr 710 Aqtau 201 Aqtobe 229 Ashgabat 234
  Ashkhabad 234 Atyrau 208 Baghdad 178 Bahrain 202 Baku 199 Bangkok 402 Barnaul 335 Beirut 142 Bishkek 298 Brunei 460
  Calcutta 353 Chita 454 Choibalsan 428 Chongqing 486 Chungking 486 Colombo 319 Dacca 362 Damascus 145 Dhaka 362 Dili
  502 Dubai 221 Dushanbe 275 Famagusta 136 Gaza 138 Harbin 486 Hebron 140 Ho_Chi_Minh 427 Hong_Kong 457 Hovd 367
  Irkutsk 417 Istanbul 116 Jakarta 427 Jayapura 563 Jerusalem 141 Kabul 277 Kamchatka 635 Karachi 268 Kashgar 350
  Kathmandu 341 Katmandu 341 Khandyga 542 Kolkata 353 Krasnoyarsk 371 Kuala_Lumpur 407 Kuching 441 Kuwait 192 Macao
  454 Macau 454 Magadan 603 Makassar 478 Manila -956 Muscat 234 Nicosia 133 Novokuznetsk 349 Novosibirsk 332 Omsk 294
  Oral 205 Phnom_Penh 420 Pontianak 437 Pyongyang 503 Qatar 206 Qostanay 254 Qyzylorda 262 Rangoon 385 Riyadh 187
  Saigon 427 Sakhalin 571 Samarkand 268 Seoul 508 Shanghai 486 Singapore 415 Srednekolymsk 615 Taipei 486 Tashkent
  277 Tbilisi 179 Tehran 206 Tel_Aviv 141 Thimbu 359 Thimphu 359 Tokyo 559 Tomsk 340 Ujung_Pandang 478 Ulaanbaatar
  428 Ulan_Bator 428 Urumqi 350 Ust-Nera 573 Vientiane 410 Vladivostok 528 Yakutsk 519 Yangon 385 Yekaterinburg 243
  Yerevan 178 Europe/ Amsterdam 20 Andorra 6 Astrakhan 192 Athens 95 Belfast -1 Belgrade 82 Berlin 53 Bratislava 58
  Brussels 18 Bucharest 104 Budapest 76 Busingen 34 Chisinau 115 Copenhagen 50 Dublin -25 Gibraltar -21 Guernsey -10
  Helsinki 100 Isle_of_Man -18 Istanbul 116 Jersey -8 Kaliningrad 82 Kiev 122 Kirov 199 Kyiv 122 Lisbon -37 Ljubljana
  58 London -1 Luxembourg 25 Madrid -15 Malta 58 Mariehamn 100 Minsk 110 Monaco 30 Moscow 150 Nicosia 133 Oslo 43
  Paris 9 Podgorica 82 Prague 58 Riga 97 Rome 50 Samara 200 San_Marino 50 Sarajevo 74 Saratov 184 Simferopol 136
  Skopje 86 Sofia 93 Stockholm 72 Tallinn 99 Tirane 79 Tiraspol 115 Ulyanovsk 194 Uzhgorod 122 Vaduz 38 Vatican 50
  Vienna 65 Vilnius 101 Volgograd 178 Warsaw 84 Zagreb 64 Zaporozhye 122 Zurich 34 Pacific/ Apia 753 Auckland 699
  Bougainville 622 Chatham 734 Chuuk -833 Easter -437 Efate 673 Enderbury 0 Fakaofo -685 Fiji 716 Funafuti 717
  Galapagos -358 Gambier -540 Guadalcanal 640 Guam -861 Honolulu -631 Johnston -631 Kanton 0 Kiritimati -629 Kosrae
  -788 Kwajalein 669 Majuro 685 Marquesas -558 Midway -709 Nauru 668 Niue -680 Norfolk 672 Noumea 666 Pago_Pago 757
  Palau -902 Pitcairn -520 Pohnpei -807 Ponape -807 Port_Moresby 589 Rarotonga 801 Saipan -857 Samoa 757 Tahiti -598
  Tarawa 692 Tongatapu 739 Truk -833 Wake 666 Wallis 735 Yap -833 America/Argentina/ Buenos_Aires -234 Catamarca -263
  ComodRivadavia -263 Cordoba -257 Jujuy -261 La_Rioja -267 Mendoza -275 Rio_Gallegos -277 Salta -262 San_Juan -274
  San_Luis -265 Tucuman -261 Ushuaia -273 America/Indiana/ Indianapolis -345 Knox -346 Marengo -345 Petersburg -349
  Tell_City -347 Vevay -340 Vincennes -350 Winamac -346 America/Kentucky/ Louisville -343 Monticello -339
  America/North_Dakota/ Beulah -407 Center -405 New_Salem -406 Antarctica/ Casey 0 Davis 0 DumontDUrville 0 Macquarie
  0 Mawson 0 McMurdo 0 Palmer 0 Rothera 0 South_Pole 0 Syowa 0 Troll 0 Vostok 0 Arctic/ Longyearbyen 43 Atlantic/
  Azores -103 Bermuda -259 Canary -62 Cape_Verde -94 Faeroe -27 Faroe -27 Jan_Mayen 43 Madeira -68 Reykjavik -88
  South_Georgia -146 St_Helena -23 Stanley -231 Australia/ ACT 605 Adelaide 554 Brisbane 612 Broken_Hill 566 Canberra
  605 Currie 589 Darwin 523 Eucla 515 Hobart 589 LHI 636 Lindeman 596 Lord_Howe 636 Melbourne 580 NSW 605 North 523
  Perth 463 Queensland 612 South 554 Sydney 605 Tasmania 589 Victoria 580 West 463 Yancowinna 566 Brazil/ Acre -271
  DeNoronha -130 East -186 West -240 Canada/ Atlantic -254 Central -389 Eastern -318 Mountain -454 Newfoundland -211
  Pacific -492 Saskatchewan -419 Yukon -540 Chile/ Continental -283 EasterIsland -437 Etc/ GMT 0 GMT+0 0 GMT+1 -60
  GMT+10 -600 GMT+11 -660 GMT+12 -720 GMT+2 -120 GMT+3 -180 GMT+4 -240 GMT+5 -300 GMT+6 -360 GMT+7 -420 GMT+8 -480
  GMT+9 -540 GMT-0 0 GMT-1 60 GMT-10 600 GMT-11 660 GMT-12 720 GMT-13 780 GMT-14 840 GMT-2 120 GMT-3 180 GMT-4 240
  GMT-5 300 GMT-6 360 GMT-7 420 GMT-8 480 GMT-9 540 GMT0 0 Greenwich 0 UCT 0 UTC 0 Universal 0 Zulu 0 Indian/
  Antananarivo 190 Chagos 290 Christmas 423 Cocos 388 Comoro 173 Kerguelen 0 Mahe 222 Maldives 294 Mauritius 230
  Mayotte 181 Reunion 222 Mexico/ BajaNorte -468 BajaSur -426 General -397 US/ Alaska 840 Aleutian 733 Arizona -448
  Central -351 East-Indiana -345 Eastern -296 Hawaii -631 Indiana-Starke -346 Michigan -332 Mountain -420 Pacific
  -473 Samoa 757 / CET 60 CST6CDT -360 Cuba -329 EET 120 EST -300 EST5EDT -300 Egypt 125 Eire -25 GB -1 GB-Eire -1
  GMT 0 GMT+0 0 GMT-0 0 GMT0 0 Greenwich 0 HST -600 Hongkong 457 Iceland -88 Iran 206 Israel 141 Jamaica -307 Japan
  559 Kwajalein 669 Libya 53 MET 60 MST -420 MST7MDT -420 NZ 699 NZ-CHAT 734 Navajo -420 PRC 486 PST8PDT -480 Poland
  84 Portugal -37 ROC 486 ROK 508 Singapore 415 Turkey 116 UCT 0 UTC 0 Universal 0 W-SU 150 WET 0 Zulu 0"

def readZones (area : String) : List String → List (String × Int)
  | name :: next :: rest =>
    if name == "/" then readZones "" (next :: rest)
    else if name.endsWith "/" then readZones name (next :: rest)
    else (area ++ name, next.toInt?.getD 0) :: readZones area rest
  | _ => []

def zoneOffsets : List (String × Int) :=
  readZones "" (Text.words zoneTable)

def zoneKey (name : String) : String :=
  ((name.replace "_plus_" "+").replace "_minus_" "-").map Char.toLower

def zoneOffset? (name : String) : Option Int :=
  let key := zoneKey name
  (zoneOffsets.find? fun (n, _) => zoneKey n == key).map (·.2)

end PineEngine.Time
